/-!
Id sources: where the ids of declarations come from.

A source gives out one id after the other, each together with what is left of
the source.  The running program draws texts from a stream.  Proofs draw the
numbers 0, 1, 2, …, which say how many were drawn before.

Ids only have to be distinct within one document.
-/

namespace TypedPseudocode

/-- A state `σ` from which ids of the kind `ι` are drawn. -/
class IdSource (σ : Type) (ι : outParam Type) where
  fresh : σ → ι × σ

instance : IdSource Nat Nat where
  fresh drawn := (drawn, drawn + 1)

abbrev IdStream := Nat → String

namespace IdStream

instance : IdSource IdStream String where
  fresh ids := (ids 0, fun n => ids (n + 1))

def sequential (stem : String) : IdStream := fun n => stem ++ n.repr

def defaultStem : String := "id"

/-! ## Version 4 uuids -/

def hexDigits (n count : Nat) : List Char :=
  match count with
  | 0 => []
  | count + 1 => hexDigits (n / 16) count ++ [Nat.digitChar (n % 16)]

def uuid (bits : Nat) : String :=
  String.ofList (hexDigits (bits >>> 90) 8 ++ '-' :: hexDigits (bits >>> 74) 4
    ++ '-' :: '4' :: hexDigits (bits >>> 62) 3
    ++ '-' :: hexDigits (8 + (bits >>> 60) % 4) 1 ++ hexDigits (bits >>> 48) 3
    ++ '-' :: hexDigits bits 12)

/--
Uuids from a seed.  Consecutive numbers are spread by an odd factor, so the
first `2 ^ 122` of them are distinct.
-/
def uuids (seed : Nat) : IdStream := fun n =>
  uuid ((seed + n) * 0x2545f4914f6cdd1d2545f4914f6cdd)

end IdStream

end TypedPseudocode
