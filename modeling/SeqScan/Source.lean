import SeqScan.Text.Lines

/-
  Sources: the texts of files, and why a file may not give one.

    `read_source`, its text       `Files.source`
    `read_source`, its message    `ReadFault.message`

  What is proved: `Files.source_of_decode?`, that a file whose bytes are a text gives
  that text.
-/

namespace SeqScan

/-- Why a file cannot be read as a text. -/
inductive ReadFault where
  | missing
  | directory
  /-- The bytes of the file are not UTF-8. -/
  | notText
  /-- Any other reason, in the system's own words. -/
  | other (reason : String)
  deriving DecidableEq, Repr

/-- A reason in words. A file that does not exist is told apart from one that
exists and cannot be read. -/
def ReadFault.message (path : String) : ReadFault → String
  | missing => "Error: file not found: " ++ path
  | directory => "Error reading " ++ path ++ ": Is a directory (os error 21)"
  | notText => "Error reading " ++ path ++ ": stream did not contain valid UTF-8"
  | other reason => "Error reading " ++ path ++ ": " ++ reason

/-- What a path leads to: the bytes of a file, or a reason why there are none. -/
abbrev Files := String → Except ReadFault (List UInt8)

def Files.source (files : Files) (path : String) : Except ReadFault String :=
  match files path with
  | .error fault => .error fault
  | .ok bytes =>
    match Text.decode? bytes with
    | some text => .ok text
    | none => .error .notText

theorem Files.source_of_decode? {files : Files} {path source : String} {bytes : List UInt8}
    (hfile : files path = .ok bytes) (htext : Text.decode? bytes = some source) :
    files.source path = .ok source := by
  simp only [Files.source, hfile, htext]

end SeqScan
