import TypedPseudocode.Json.Quoted

/-!
Comments, strings and keys of TOML text.

A string stands between double quotes and knows escapes, or between single
quotes and knows none.  Between three quotes it may run over several lines: a
line end right after the opening quotes is left out, every other one counts as
a line feed, and one or two quotes may stand anywhere, also right before the
closing three.  Each reader takes its part off the front of the text and gives
back the rest.
-/

namespace TypedPseudocode.Toml

/-! ## Blanks, comments and lines -/

def isSpace (c : Char) : Bool := c = ' ' || c = '\t'

def isControl (c : Char) : Bool := c < ' ' && c ≠ '\t'

def isRefused (c : Char) : Bool := isControl c || c = '\x7f'

def skipSpaces (text : List Char) : List Char := text.dropWhile isSpace

def skipLines : Bool → List Char → Option (List Char)
  | _, '\n' :: rest => skipLines false rest
  | _, '\r' :: '\n' :: rest => skipLines false rest
  | false, '#' :: rest => skipLines true rest
  | false, c :: rest => if isSpace c then skipLines false rest else some (c :: rest)
  | true, c :: rest => if isControl c then none else skipLines true rest
  | _, [] => some []

def endLine (text : List Char) : Option (List Char) :=
  match skipSpaces text with
  | [] => some []
  | '\n' :: rest => some rest
  | '\r' :: '\n' :: rest => some rest
  | '#' :: rest => skipLines true rest
  | _ => none

def skipLineEnd : List Char → List Char
  | '\n' :: rest => rest
  | '\r' :: '\n' :: rest => rest
  | text => text

def isLineEnd (text : List Char) : Bool :=
  match skipSpaces text with
  | '\n' :: _ => true
  | '\r' :: '\n' :: _ => true
  | _ => false

/-! ## Strings on one line -/

def escaped? : Char → Option Char
  | 'b' => some '\x08'
  | 't' => some '\t'
  | 'n' => some '\n'
  | 'f' => some '\x0c'
  | 'r' => some '\r'
  | '"' => some '"'
  | '\\' => some '\\'
  | _ => none

def coded? (digits : List Char) : Option Char := do
  let values ← digits.mapM Json.Quoted.hexValue?
  let code := values.foldl (fun n d => 16 * n + d) 0
  if code.isValidChar then some (Char.ofNat code) else none

def also (c : Char) (taken : List Char × List Char) : List Char × List Char :=
  (c :: taken.1, taken.2)

def takeBasic : List Char → Option (List Char × List Char)
  | '"' :: rest => some ([], rest)
  | '\\' :: 'u' :: a :: b :: c :: d :: rest => do
      return also (← coded? [a, b, c, d]) (← takeBasic rest)
  | '\\' :: 'U' :: a :: b :: c :: d :: e :: f :: g :: h :: rest => do
      return also (← coded? [a, b, c, d, e, f, g, h]) (← takeBasic rest)
  | '\\' :: c :: rest => do return also (← escaped? c) (← takeBasic rest)
  | c :: rest => if isRefused c then none else (takeBasic rest).map (also c)
  | [] => none

def takeLiteral : List Char → Option (List Char × List Char)
  | '\'' :: rest => some ([], rest)
  | c :: rest => if isRefused c then none else (takeLiteral rest).map (also c)
  | [] => none

/-! ## Strings over several lines -/

/--
A string after its three opening double quotes.  A backslash at the end of a
line joins it to the next line that is not empty, without the spaces between;
the flag tells whether such spaces are being left out.
-/
def takeLongBasic : Bool → List Char → Option (List Char × List Char)
  | true, ' ' :: rest => takeLongBasic true rest
  | true, '\t' :: rest => takeLongBasic true rest
  | true, '\n' :: rest => takeLongBasic true rest
  | true, '\r' :: '\n' :: rest => takeLongBasic true rest
  | _, '"' :: '"' :: '"' :: '"' :: '"' :: rest => some (['"', '"'], rest)
  | _, '"' :: '"' :: '"' :: '"' :: rest => some (['"'], rest)
  | _, '"' :: '"' :: '"' :: rest => some ([], rest)
  | _, '\\' :: 'u' :: a :: b :: c :: d :: rest => do
      return also (← coded? [a, b, c, d]) (← takeLongBasic false rest)
  | _, '\\' :: 'U' :: a :: b :: c :: d :: e :: f :: g :: h :: rest => do
      return also (← coded? [a, b, c, d, e, f, g, h]) (← takeLongBasic false rest)
  | _, '\\' :: c :: rest =>
      match escaped? c with
      | some char => (takeLongBasic false rest).map (also char)
      | none => if isLineEnd (c :: rest) then takeLongBasic true rest else none
  | _, '\r' :: '\n' :: rest => (takeLongBasic false rest).map (also '\n')
  | _, '\n' :: rest => (takeLongBasic false rest).map (also '\n')
  | _, c :: rest => if isRefused c then none else (takeLongBasic false rest).map (also c)
  | _, [] => none

def takeLongLiteral : List Char → Option (List Char × List Char)
  | '\'' :: '\'' :: '\'' :: '\'' :: '\'' :: rest => some (['\'', '\''], rest)
  | '\'' :: '\'' :: '\'' :: '\'' :: rest => some (['\''], rest)
  | '\'' :: '\'' :: '\'' :: rest => some ([], rest)
  | '\r' :: '\n' :: rest => (takeLongLiteral rest).map (also '\n')
  | '\n' :: rest => (takeLongLiteral rest).map (also '\n')
  | c :: rest => if isRefused c then none else (takeLongLiteral rest).map (also c)
  | [] => none

def takeString : List Char → Option (List Char × List Char)
  | '"' :: '"' :: '"' :: rest => takeLongBasic false (skipLineEnd rest)
  | '"' :: rest => takeBasic rest
  | '\'' :: '\'' :: '\'' :: rest => takeLongLiteral (skipLineEnd rest)
  | '\'' :: rest => takeLiteral rest
  | _ => none

/-! ## Keys -/

def isBareKey (c : Char) : Bool := c.isAlphanum || c = '_' || c = '-'

def takeKey : List Char → Option (String × List Char)
  | '"' :: rest => (takeBasic rest).map fun taken => (String.ofList taken.1, taken.2)
  | '\'' :: rest => (takeLiteral rest).map fun taken => (String.ofList taken.1, taken.2)
  | text =>
      match text.takeWhile isBareKey with
      | [] => none
      | key => some (String.ofList key, text.dropWhile isBareKey)

/--
A key that may be dotted: the tables that lead to it, and its own name.  It has
at most as many parts as the number says.
-/
def takePath : Nat → List Char → Option ((List String × String) × List Char)
  | 0, _ => none
  | parts + 1, text => do
      let (key, text) ← takeKey (skipSpaces text)
      match skipSpaces text with
      | '.' :: rest =>
          let ((path, last), rest) ← takePath parts rest
          return ((key :: path, last), rest)
      | rest => return (([], key), rest)

def maxParts : Nat := 127

end TypedPseudocode.Toml
