import Mathlib

/-! Private memories kept in one shared memory. Addresses are translated to slots by a map that
    changes as owners come and go; as long as no two addresses share a slot and an address in use
    does not move, what was stored to it last is what is read back. -/

namespace Paging

variable {α β γ : Type*} {tr tr' : α → Option β} {mem : β → γ} {c c' : α → Option γ}

/-- No two addresses share a slot. -/
def Separate (tr : α → Option β) : Prop := ∀ ⦃a a' b⦄, tr a = some b → tr a' = some b → a = a'

/-- The shared memory holds the private contents `c` behind the translation. -/
def Holds (tr : α → Option β) (mem : β → γ) (c : α → Option γ) : Prop :=
  ∀ a v, c a = some v → (tr a).map mem = some v

/-- A store through the translation changes the contents of its own address only. -/
theorem Holds.store [DecidableEq α] [DecidableEq β] (h : Holds tr mem c) (hsep : Separate tr) {a : α}
    {b : β} (hb : tr a = some b) (v : γ) :
    Holds tr (Function.update mem b v) (Function.update c a (some v)) := by
  intro a' v' hc
  by_cases ha : a' = a
  · subst ha
    obtain rfl : v = v' := by simpa using hc
    simp [hb]
  · rw [Function.update_of_ne ha] at hc
    obtain ⟨b', hb', hv⟩ := Option.map_eq_some_iff.mp (h a' v' hc)
    have hne : b' ≠ b := fun he => ha (hsep hb' (he ▸ hb))
    rw [hb', Option.map_some, Function.update_of_ne hne, hv]

/-- A new translation keeps what is still promised, provided those addresses have not moved. -/
theorem Holds.remap (h : Holds tr mem c)
    (hkept : ∀ a v, c' a = some v → c a = some v ∧ ∀ b, tr a = some b → tr' a = some b) :
    Holds tr' mem c' := by
  intro a v hc
  obtain ⟨hca, hstay⟩ := hkept a v hc
  obtain ⟨b, hb, hv⟩ := Option.map_eq_some_iff.mp (h a v hca)
  rw [hstay b hb, Option.map_some, hv]

end Paging
