/-
  The kinds of token.

  A kind is an operator, a literal, a name, a reserved word or the end of the
  text. The keywords are kinds too: they are what a table of reserved words
  holds, while a token for a reserved word is of kind `reserveWord`.

  Every kind has a name in upper snake case, under which tokens are written,
  and a title in camel case, under which keywords are logged.

    `TokenKind`                   `TokenKind`, in three parts
    `TokenKind::name`             `TokenKind.name`
    `?keyword` in `scan_name`     `TokenKind.title`

  What is proved:
    1. `mem_all`: the listing of all kinds is complete.
    2. `name_inj`: no two kinds have one name.
-/

namespace SeqScan

inductive Operator where
  | leftParen | rightParen | leftBrace | rightBrace | comma | dot | minus | plus | semicolon
  | slash | star | verticalLine | colon | rangeSeparator | assignment | bang | bangEqual
  | equal | equalEqual | less | lessEqual | greater | greaterEqual
  deriving DecidableEq, Repr

/-- The words a table of reserved words knows. -/
inductive Keyword where
  | andWord | classWord | elseWord | falseWord | forWord | funWord | ifWord | nilWord | orWord
  | printWord | returnWord | superWord | thisWord | trueWord | varWord | whileWord
  | tagsWord | beginWord | sequenceWord | integerWord | dateWord | endWord
  deriving DecidableEq, Repr

/-- What a token is. -/
inductive TokenKind where
  | operator (op : Operator)
  | number
  | string
  | identifier
  | typeReference
  | reserveWord
  | keyword (word : Keyword)
  | eof
  deriving DecidableEq, Repr

/-! Names -/

def Operator.name : Operator → String
  | leftParen => "LEFT_PAREN"
  | rightParen => "RIGHT_PAREN"
  | leftBrace => "LEFT_BRACE"
  | rightBrace => "RIGHT_BRACE"
  | comma => "COMMA"
  | dot => "DOT"
  | minus => "MINUS"
  | plus => "PLUS"
  | semicolon => "SEMICOLON"
  | slash => "SLASH"
  | star => "STAR"
  | verticalLine => "VERTICAL_LINE"
  | colon => "COLON"
  | rangeSeparator => "RANGE_SEPARATOR"
  | assignment => "ASSIGNMENT"
  | bang => "BANG"
  | bangEqual => "BANG_EQUAL"
  | equal => "EQUAL"
  | equalEqual => "EQUAL_EQUAL"
  | less => "LESS"
  | lessEqual => "LESS_EQUAL"
  | greater => "GREATER"
  | greaterEqual => "GREATER_EQUAL"

/-- The name of a keyword, which is also its spelling in upper case. -/
def Keyword.name : Keyword → String
  | andWord => "AND"
  | classWord => "CLASS"
  | elseWord => "ELSE"
  | falseWord => "FALSE"
  | forWord => "FOR"
  | funWord => "FUN"
  | ifWord => "IF"
  | nilWord => "NIL"
  | orWord => "OR"
  | printWord => "PRINT"
  | returnWord => "RETURN"
  | superWord => "SUPER"
  | thisWord => "THIS"
  | trueWord => "TRUE"
  | varWord => "VAR"
  | whileWord => "WHILE"
  | tagsWord => "TAGS"
  | beginWord => "BEGIN"
  | sequenceWord => "SEQUENCE"
  | integerWord => "INTEGER"
  | dateWord => "DATE"
  | endWord => "END"

namespace TokenKind

/-- The name of a kind, in upper snake case. -/
def name : TokenKind → String
  | operator op => op.name
  | number => "NUMBER"
  | string => "STRING"
  | identifier => "IDENTIFIER"
  | typeReference => "TYPE_REFERENCE"
  | reserveWord => "RESERVE_WORD"
  | keyword word => word.name
  | eof => "EOF"

end TokenKind

/-! Listings -/

def Operator.all : List Operator :=
  [leftParen, rightParen, leftBrace, rightBrace, comma, dot, minus, plus, semicolon, slash, star,
    verticalLine, colon, rangeSeparator, assignment, bang, bangEqual, equal, equalEqual, less,
    lessEqual, greater, greaterEqual]

def Keyword.all : List Keyword :=
  [andWord, classWord, elseWord, falseWord, forWord, funWord, ifWord, nilWord, orWord, printWord,
    returnWord, superWord, thisWord, trueWord, varWord, whileWord, tagsWord, beginWord,
    sequenceWord, integerWord, dateWord, endWord]

theorem Operator.mem_all (op : Operator) : op ∈ all := by
  cases op <;> decide

theorem Keyword.mem_all (word : Keyword) : word ∈ all := by
  cases word <;> decide

namespace TokenKind

def all : List TokenKind :=
  Operator.all.map operator ++ [number, string, identifier, typeReference, reserveWord] ++
    Keyword.all.map keyword ++ [eof]

theorem mem_all (kind : TokenKind) : kind ∈ all := by
  cases kind <;> simp [all, Operator.mem_all, Keyword.mem_all]

theorem name_inj {a b : TokenKind} (h : a.name = b.name) : a = b := by
  have hdistinct : ∀ x ∈ all, ∀ y ∈ all, x.name = y.name → x = y := by decide
  exact hdistinct a (mem_all a) b (mem_all b) h

/-! Titles -/

/-- Camel case from snake case: a letter that starts a word stays, any other
goes to lower case, and the underscores are dropped. -/
def camelCase : Bool → List Char → List Char
  | _, [] => []
  | starts, c :: rest =>
    if c = '_' then camelCase true rest
    else (if starts then c else c.toLower) :: camelCase false rest

def title (kind : TokenKind) : String := String.ofList (camelCase true kind.name.toList)

end TokenKind

end SeqScan
