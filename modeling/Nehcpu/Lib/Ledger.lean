-- A ledger of places: each place of a domain is free, is held by somebody else, or is one of the
-- places on the owner's list, and never two of these.
import Mathlib.Data.List.Nodup

namespace nehcpu.ledger

variable {α : Type*} {dom held free free' : α → Prop} {own own' : List α} {b : α}

structure Ledger (dom held free : α → Prop) (own : List α) : Prop where
  nodup : own.Nodup
  inside : ∀ b ∈ own, dom b
  apart : ∀ b ∈ own, ¬ held b ∧ ¬ free b
  free_held : ∀ b, free b → ¬ held b
  cover : ∀ b, dom b → held b ∨ free b ∨ b ∈ own

theorem Ledger.perm (h : Ledger dom held free own) (hp : own.Perm own') :
    Ledger dom held free own' where
  nodup := hp.nodup_iff.1 h.nodup
  inside b hb := h.inside b (hp.mem_iff.2 hb)
  apart b hb := h.apart b (hp.mem_iff.2 hb)
  free_held := h.free_held
  cover b hb := by
    rw [← hp.mem_iff]
    exact h.cover b hb

/-- A free place goes on the list. -/
theorem Ledger.take (h : Ledger dom held free own) (hb : free b) (hd : dom b)
    (hf : ∀ a, free' a ↔ free a ∧ a ≠ b) : Ledger dom held free' (b :: own) where
  nodup := by
    apply List.nodup_cons.2
    exact ⟨fun hm => (h.apart b hm).2 hb, h.nodup⟩
  inside a ha := by
    rcases List.mem_cons.1 ha with rfl | ha
    · exact hd
    · exact h.inside a ha
  apart a ha := by
    rw [hf]
    rcases List.mem_cons.1 ha with rfl | ha
    · exact ⟨h.free_held a hb, fun hn => hn.2 rfl⟩
    · exact ⟨(h.apart a ha).1, fun hn => (h.apart a ha).2 hn.1⟩
  free_held a ha := h.free_held a ((hf a).1 ha).1
  cover a ha := by
    rw [hf, List.mem_cons]
    rcases h.cover a ha with hh | hh | hh
    · exact Or.inl hh
    · by_cases hab : a = b
      · exact Or.inr (Or.inr (Or.inl hab))
      · exact Or.inr (Or.inl ⟨hh, hab⟩)
    · exact Or.inr (Or.inr (Or.inr hh))

/-- The first place on the list becomes free. -/
theorem Ledger.give (h : Ledger dom held free (b :: own))
    (hf : ∀ a, free' a ↔ free a ∨ a = b) : Ledger dom held free' own where
  nodup := (List.nodup_cons.1 h.nodup).2
  inside a ha := h.inside a (List.mem_cons_of_mem b ha)
  apart a ha := by
    have hm := h.apart a (List.mem_cons_of_mem b ha)
    have hne : a ≠ b := fun he => (List.nodup_cons.1 h.nodup).1 (he ▸ ha)
    rw [hf]
    exact ⟨hm.1, fun hn => hn.elim hm.2 hne⟩
  free_held a ha := by
    rcases (hf a).1 ha with ha | rfl
    · exact h.free_held a ha
    · exact (h.apart a List.mem_cons_self).1
  cover a ha := by
    rw [hf]
    rcases h.cover a ha with hh | hh | hh
    · exact Or.inl hh
    · exact Or.inr (Or.inl (Or.inl hh))
    · rcases List.mem_cons.1 hh with rfl | hh
      · exact Or.inr (Or.inl (Or.inr rfl))
      · exact Or.inr (Or.inr hh)

end nehcpu.ledger
