import TypedPseudocode.Code
import TypedPseudocode.OrderedMap

/-!
The type store: what is known of each variable's type.

Types only ever move up.
-/

namespace TypedPseudocode

open Code

abbrev TypeStore := OrderedMap VarId Ty

namespace TypeStore

/-- Nothing is known of a variable that was never registered. -/
def tyOf (store : TypeStore) (v : VarId) : Ty := (store.get? v).getD .unknown

def register (store : TypeStore) (v : VarId) (ty : Ty) : TypeStore := store.insert v ty

/-- Unify a type into what is known; the error is what was known. -/
def constrain (store : TypeStore) (v : VarId) (ty : Ty) : Except Ty Ty × TypeStore :=
  match (store.tyOf v).unify ty with
  | some unified => (.ok unified, store.insert v unified)
  | none => (.error (store.tyOf v), store)

@[simp] theorem tyOf_empty (v : VarId) : tyOf OrderedMap.empty v = .unknown := rfl

theorem tyOf_register (store : TypeStore) (v w : VarId) (ty : Ty) :
    (store.register v ty).tyOf w = if v = w then ty else store.tyOf w := by
  by_cases h : v = w <;> simp [tyOf, register, OrderedMap.get?_insert, h]

theorem tyOf_constrain {store : TypeStore} {v : VarId} {ty unified : Ty}
    (h : (store.constrain v ty).1 = .ok unified) (w : VarId) :
    (store.constrain v ty).2.tyOf w = if v = w then unified else store.tyOf w := by
  unfold constrain at h ⊢
  split at h
  · cases h
    exact tyOf_register store v w unified
  · cases h

end TypeStore

end TypedPseudocode
