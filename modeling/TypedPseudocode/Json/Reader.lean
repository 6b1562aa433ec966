import TypedPseudocode.Json.Draft
import TypedPseudocode.Json.Number
import TypedPseudocode.Json.Quoted

/-!
JSON values from text.

Reading is strict: no comments, no trailing commas, and nothing but white space
around the value.  It runs in two passes, each a machine that takes one symbol
at a time: characters are grouped into tokens, and tokens are assembled into a
draft on a stack of unfinished arrays and objects.  The draft is then asked for
its value, or for the value of the parts that a reader looks at.
-/

namespace TypedPseudocode.Json

/-! ## Tokens -/

inductive Token where
  | openArray
  | closeArray
  | openObject
  | closeObject
  | comma
  | colon
  | scalar (value : Option Json)
  | text (value : Option String)
  deriving Repr

inductive Partial where
  | nothing
  | word (letters : List Char)
  | numeral (symbols : List Char)
  | quoted (raw : List Char)
  | escaped (raw : List Char)

structure Scanner where
  reading : Partial
  tokens : List Token

namespace Scanner

def isWordLetter (c : Char) : Bool := 'a' ≤ c && c ≤ 'z'

def isNumeralSymbol (c : Char) : Bool :=
  (digit? c).isSome || c == '-' || c == '+' || c == '.' || c == 'e' || c == 'E'

def wordToken? (letters : List Char) : Option Token :=
  match String.ofList letters.reverse with
  | "null" => some (.scalar (some .null))
  | "true" => some (.scalar (some (.bool true)))
  | "false" => some (.scalar (some (.bool false)))
  | _ => none

def numeralToken? (symbols : List Char) : Option Token :=
  (Numeral.ofText? symbols.reverse).map fun numeral => .scalar numeral.toJson?

/-- The text of well formed escapes, even if they do not pair up to characters. -/
def quotedToken? (raw : List Char) : Option Token :=
  match Quoted.unescape raw.reverse with
  | some text => some (.text (some (String.ofList text)))
  | none => if Quoted.isWellFormed raw.reverse then some (.text none) else none

def start (tokens : List Token) (c : Char) : Option Scanner :=
  if c = ' ' ∨ c = '\t' ∨ c = '\n' ∨ c = '\r' then some ⟨.nothing, tokens⟩
  else if c = '[' then some ⟨.nothing, .openArray :: tokens⟩
  else if c = ']' then some ⟨.nothing, .closeArray :: tokens⟩
  else if c = '\x7b' then some ⟨.nothing, .openObject :: tokens⟩
  else if c = '\x7d' then some ⟨.nothing, .closeObject :: tokens⟩
  else if c = ',' then some ⟨.nothing, .comma :: tokens⟩
  else if c = ':' then some ⟨.nothing, .colon :: tokens⟩
  else if c = '"' then some ⟨.quoted [], tokens⟩
  else if isWordLetter c then some ⟨.word [c], tokens⟩
  else if c = '-' ∨ (digit? c).isSome then some ⟨.numeral [c], tokens⟩
  else none

def step (s : Scanner) (c : Char) : Option Scanner :=
  match s.reading with
  | .nothing => start s.tokens c
  | .word letters =>
      if isWordLetter c then some { s with reading := .word (c :: letters) }
      else do start ((← wordToken? letters) :: s.tokens) c
  | .numeral symbols =>
      if isNumeralSymbol c then some { s with reading := .numeral (c :: symbols) }
      else do start ((← numeralToken? symbols) :: s.tokens) c
  | .quoted raw =>
      if c = '"' then do return ⟨.nothing, (← quotedToken? raw) :: s.tokens⟩
      else if c = '\\' then some { s with reading := .escaped (c :: raw) }
      else if c.toNat < 0x20 then none
      else some { s with reading := .quoted (c :: raw) }
  | .escaped raw =>
      if c.toNat < 0x20 then none else some { s with reading := .quoted (c :: raw) }

def run (s : Scanner) : List Char → Option Scanner
  | [] => some s
  | c :: rest =>
      match s.step c with
      | some s' => run s' rest
      | none => none

def finish (s : Scanner) : Option (List Token) :=
  match s.reading with
  | .nothing => some s.tokens.reverse
  | .word letters => do return ((← wordToken? letters) :: s.tokens).reverse
  | .numeral symbols => do return ((← numeralToken? symbols) :: s.tokens).reverse
  | .quoted _ | .escaped _ => none

end Scanner

def tokens? (text : List Char) : Option (List Token) := do
  let s ← (⟨.nothing, []⟩ : Scanner).run text
  s.finish

/-! ## Drafts -/

inductive Frame where
  | element (done : List Draft)
  | member (done : List (Option String × Draft)) (key : Option String)

/-- What may come next.  The stack holds the enclosing arrays and objects. -/
inductive Assembler where
  | value (stack : List Frame)
  | firstElement (stack : List Frame)
  | firstKey (stack : List Frame)
  | nextKey (done : List (Option String × Draft)) (stack : List Frame)
  | colon (done : List (Option String × Draft)) (key : Option String) (stack : List Frame)
  | afterElement (done : List Draft) (stack : List Frame)
  | afterMember (done : List (Option String × Draft)) (stack : List Frame)
  | finished (draft : Draft)

namespace Assembler

def deliver (d : Draft) : List Frame → Assembler
  | [] => .finished d
  | .element done :: stack => .afterElement (d :: done) stack
  | .member done key :: stack => .afterMember ((key, d) :: done) stack

def beginValue (stack : List Frame) : Token → Option Assembler
  | .scalar v => some (deliver (.scalar v) stack)
  | .text s => some (deliver (.scalar (s.map .str)) stack)
  | .openArray => some (.firstElement stack)
  | .openObject => some (.firstKey stack)
  | _ => none

def step : Assembler → Token → Option Assembler
  | .value stack, t => beginValue stack t
  | .firstElement stack, .closeArray => some (deliver (.arr []) stack)
  | .firstElement stack, t => beginValue (.element [] :: stack) t
  | .firstKey stack, .closeObject => some (deliver (.obj []) stack)
  | .firstKey stack, .text key => some (.colon [] key stack)
  | .nextKey done stack, .text key => some (.colon done key stack)
  | .colon done key stack, .colon => some (.value (.member done key :: stack))
  | .afterElement done stack, .comma => some (.value (.element done :: stack))
  | .afterElement done stack, .closeArray => some (deliver (.arr done.reverse) stack)
  | .afterMember done stack, .comma => some (.nextKey done stack)
  | .afterMember done stack, .closeObject => some (deliver (.obj done.reverse) stack)
  | _, _ => none

def run (s : Assembler) : List Token → Option Assembler
  | [] => some s
  | t :: rest =>
      match s.step t with
      | some s' => run s' rest
      | none => none

def finish : Assembler → Option Draft
  | .finished d => some d
  | _ => none

end Assembler

def Draft.ofText? (text : String) : Option Draft := do
  let tokens ← tokens? text.toList
  let s ← (Assembler.value []).run tokens
  s.finish

/-! ## Values -/

/--
Read the parts of a text that a shape looks at; of arrays and objects at most
`limit` may be nested there.
-/
def select? (shape : Shape) (limit : Nat) (text : String) : Option Json := do
  let draft ← Draft.ofText? text
  let looked := draft.prune .kept shape
  if looked.nestsWithin limit then looked.value? else none

def ofText? (limit : Nat) (text : String) : Option Json := select? .whole limit text

def maxDepth : Nat := 127

end TypedPseudocode.Json
