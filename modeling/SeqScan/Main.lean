import SeqScan.Command.Reader
import SeqScan.Command.Run
import SeqScan.LogFilter

/-
  The command line program.

  What a run writes is decided by `Run`; this file reads the arguments, the setting of the
  log, files and standard input, and carries the writes out. A session is read line by line,
  so that each line is answered before the next is read; `Run.session` gives the same answers
  to the input as a whole (`Run.writes_session_line`).
-/

namespace SeqScan

def libraries : Libraries := ⟨reader, logFilter⟩

/-- The bytes of a file on disk. A path that cannot be looked up leads to nothing;
a directory can be looked up and not read. -/
def readDisk (path : String) : IO (Except ReadFault (List UInt8)) := do
  try
    return .ok (← IO.FS.readBinFile path).toList
  catch
    | .noFileOrDirectory .. | .invalidArgument .. => return .error .missing
    | .inappropriateType (some _) .. => return .error .missing
    | .inappropriateType none .. => return .error .directory
    | .permissionDenied .. => return .error (.other "Permission denied (os error 13)")
    | fault => return .error (.other (toString fault))

/-- Carry out writes in their order, and show them. -/
def performAll (writes : List Write) : IO Unit := do
  writes.forM fun write => do
    IO.print write.outText
    IO.eprint (write.errText libraries.logging.line 0)
  (← IO.getStdout).flush

/-- The bytes up to and including the next line feed. -/
partial def readLineBytes (input : IO.FS.Stream) (before : List UInt8) : IO (List UInt8) := do
  let next ← input.read 1
  match next.toList with
  | [] => return before.reverse
  | byte :: _ =>
    if byte = 10 then return (byte :: before).reverse
    else readLineBytes input (byte :: before)

/-- Answer lines until the input ends or a line is no text. -/
partial def converse (log : Log) (input : IO.FS.Stream) : IO Unit := do
  performAll [Run.prompt]
  match Text.byteLines (← readLineBytes input []) with
  | [] => return
  | line :: _ =>
    let (writes, goesOn) := Run.answer log line
    performAll writes
    if goesOn then converse log input

/-- Run the program on its arguments and give its exit code. -/
def execute (words : List String) : IO UInt32 := do
  let setting ← IO.getEnv "RUST_LOG"
  match Request.read libraries.parser words with
  | .run .repl =>
    converse (libraries.logging.log setting) (← IO.getStdin)
    return 0
  | request =>
    let bytes ← match request with
      | .run (.file _ path) => readDisk path
      | _ => pure (.error .missing)
    let run := Run.ofArguments libraries ⟨setting, fun _ => bytes, []⟩ words
    performAll run.writes
    return UInt32.ofNat run.exit

end SeqScan

def main (words : List String) : IO UInt32 := SeqScan.execute words
