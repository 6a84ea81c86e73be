import Mathlib.Logic.Function.Basic

/-!
# Private maps with a shared part

Several spaces map keys to values. Some keys are shared: they have one value for all spaces. The
others belong to each space alone, which starts with none of them and takes its own with it when it
goes. This is what an address space is for, without any of the tables that implement it.
-/

/-- The value of every shared key, and the private map of every space that exists. -/
structure SharedMap (Space Key Value : Type) where
  shared : Key → Option Value
  own : Space → Option (Key → Option Value)

namespace SharedMap

variable {Space Key Value : Type} [DecidableEq Space] [DecidableEq Key] (isShared : Key → Prop)
  [DecidablePred isShared]

def lookup (m : SharedMap Space Key Value) (space : Space) (key : Key) : Option Value :=
  if isShared key then m.shared key else (m.own space).bind fun map => map key

def create (m : SharedMap Space Key Value) (space : Space) : SharedMap Space Key Value :=
  { m with own := Function.update m.own space (some fun _ => none) }

def drop (m : SharedMap Space Key Value) (space : Space) : SharedMap Space Key Value :=
  { m with own := Function.update m.own space none }

/-- Give a key a value, or none, in the map it belongs to. -/
def set (m : SharedMap Space Key Value) (space : Space) (key : Key) (value : Option Value) :
    SharedMap Space Key Value where
  shared := if isShared key then Function.update m.shared key value else m.shared
  own :=
    if isShared key then m.own
    else Function.update m.own space
      ((m.own space).map fun map => Function.update map key value)

variable {isShared} {m : SharedMap Space Key Value} {space space' : Space} {key key' : Key}
  {value : Option Value}

omit [DecidableEq Key] in
theorem own_create :
    (m.create space).own = Function.update m.own space (some fun _ => none) := rfl

omit [DecidableEq Key] in
theorem own_drop : (m.drop space).own = Function.update m.own space none := rfl

theorem shared_set : (m.set isShared space key value).shared
    = if isShared key then Function.update m.shared key value else m.shared := rfl

theorem own_set : (m.set isShared space key value).own
    = if isShared key then m.own
      else Function.update m.own space
        ((m.own space).map fun map => Function.update map key value) := rfl

omit [DecidableEq Key] in
theorem isSome_own_create :
    ((m.create space).own space').isSome = true ↔ space' = space ∨ (m.own space').isSome = true := by
  rw [own_create, Function.update_apply]
  by_cases heq : space' = space <;> simp [heq]

omit [DecidableEq Key] in
theorem isSome_own_drop :
    ((m.drop space).own space').isSome = true ↔ (m.own space').isSome = true ∧ space' ≠ space := by
  rw [own_drop, Function.update_apply]
  by_cases heq : space' = space <;> simp [heq]

theorem isSome_own_set :
    ((m.set isShared space key value).own space').isSome = (m.own space').isSome := by
  rw [own_set]
  split
  · rfl
  · rw [Function.update_apply]
    by_cases heq : space' = space <;> simp [heq]

omit [DecidableEq Key] in
theorem lookup_create_self :
    (m.create space).lookup isShared space key = if isShared key then m.shared key else none := by
  rw [lookup, own_create, Function.update_self]
  rfl

omit [DecidableEq Key] in
theorem lookup_create_of_ne (hne : space' ≠ space) :
    (m.create space).lookup isShared space' key = m.lookup isShared space' key := by
  rw [lookup, lookup, own_create, Function.update_of_ne hne]
  rfl

omit [DecidableEq Key] in
theorem lookup_drop_of_ne (hne : space' ≠ space) :
    (m.drop space).lookup isShared space' key = m.lookup isShared space' key := by
  rw [lookup, lookup, own_drop, Function.update_of_ne hne]
  rfl

/-- Setting a key is seen in the space it is set in, and everywhere if the key is shared. -/
theorem lookup_set_of_sees (hspace : (m.own space).isSome = true)
    (hsees : space' = space ∨ isShared key) :
    (m.set isShared space key value).lookup isShared space' key = value := by
  rw [lookup, shared_set, own_set]
  by_cases hshared : isShared key
  · rw [if_pos hshared, if_pos hshared, Function.update_self]
  · obtain rfl := hsees.resolve_right hshared
    obtain ⟨map, hmap⟩ := Option.isSome_iff_exists.mp hspace
    rw [if_neg hshared, if_neg hshared, Function.update_self, hmap]
    change Function.update map key value key = value
    rw [Function.update_self]

theorem lookup_set_of_not_sees (hsees : ¬ (key' = key ∧ (space' = space ∨ isShared key))) :
    (m.set isShared space key value).lookup isShared space' key'
      = m.lookup isShared space' key' := by
  rw [lookup, lookup, shared_set, own_set]
  by_cases hshared : isShared key
  · have hne : key' ≠ key := fun heq => hsees ⟨heq, Or.inr hshared⟩
    rw [if_pos hshared, if_pos hshared, Function.update_of_ne hne]
  · rw [if_neg hshared, if_neg hshared]
    by_cases hspace : space' = space
    · have hne : key' ≠ key := fun heq => hsees ⟨heq, Or.inl hspace⟩
      rw [hspace, Function.update_self]
      cases m.own space with
      | none => rfl
      | some map =>
          change (if isShared key' then _ else Function.update map key value key') = _
          rw [Function.update_of_ne hne]
          rfl
    · rw [Function.update_of_ne hspace]

end SharedMap
