-- Lists of half-open intervals that stand one after the other. The values carry their bounds,
-- and any linear order will do.
import Mathlib.Order.Defs.LinearOrder
import Mathlib.Data.List.TakeWhile
import Mathlib.Order.Lattice

namespace nehcpu.intervals

variable {α β : Type*} [LinearOrder β] {lo hi : α → β}

/-- No interval is empty, and each ends before the next one starts. -/
structure Separated (lo hi : α → β) (l : List α) : Prop where
  proper : ∀ v ∈ l, lo v < hi v
  apart : l.Pairwise fun v w => hi v ≤ lo w

theorem Separated.nil : Separated lo hi [] := ⟨by simp, List.Pairwise.nil⟩

theorem Separated.tail {v : α} {l : List α} (h : Separated lo hi (v :: l)) : Separated lo hi l :=
  ⟨fun w hw => h.proper w (List.mem_cons_of_mem v hw), h.apart.of_cons⟩

/-- The starts grow along the list. -/
theorem Separated.sorted {l : List α} (h : Separated lo hi l) :
    l.Pairwise fun v w => lo v < lo w := by
  apply h.apart.imp_of_mem
  intro v w hv _ hvw
  exact lt_of_lt_of_le (h.proper v hv) hvw

/-- The first interval that ends above a point is the one that ends lowest above it. -/
theorem Separated.find?_eq_some {l : List α} (h : Separated lo hi l) (x : β) (v : α) :
    l.find? (fun w => decide (x < hi w)) = some v ↔
      v ∈ l ∧ x < hi v ∧ ∀ w ∈ l, x < hi w → w = v ∨ hi v < hi w := by
  induction l with
  | nil => simp
  | cons u l ih =>
    have hu : ∀ w ∈ l, hi u < hi w := by
      intro w hw
      apply lt_of_le_of_lt ((List.pairwise_cons.1 h.apart).1 w hw)
      exact h.proper w (List.mem_cons_of_mem u hw)
    by_cases hx : x < hi u
    · rw [List.find?_cons_of_pos (by simpa using hx)]
      constructor
      · intro he
        obtain rfl := Option.some_inj.1 he
        refine ⟨List.mem_cons_self, hx, ?_⟩
        intro w hw _
        rcases List.mem_cons.1 hw with rfl | hw
        · exact Or.inl rfl
        · exact Or.inr (hu w hw)
      · rintro ⟨hv, -, hmin⟩
        rcases List.mem_cons.1 hv with rfl | hv
        · rfl
        · rcases hmin u List.mem_cons_self hx with rfl | hlt
          · rfl
          · exact absurd hlt (hu v hv).asymm
    · rw [List.find?_cons_of_neg (by simpa using hx), ih h.tail]
      constructor
      · rintro ⟨hv, hxv, hmin⟩
        refine ⟨List.mem_cons_of_mem u hv, hxv, ?_⟩
        intro w hw hxw
        rcases List.mem_cons.1 hw with rfl | hw
        · exact absurd hxw hx
        · exact hmin w hw hxw
      · rintro ⟨hv, hxv, hmin⟩
        rcases List.mem_cons.1 hv with rfl | hv
        · exact absurd hxv hx
        · exact ⟨hv, hxv, fun w hw => hmin w (List.mem_cons_of_mem u hw)⟩

/-- So an interval around the point is found, whichever way it is looked for. -/
theorem Separated.find?_around {l : List α} (h : Separated lo hi l) {x : β} {v : α} (hv : v ∈ l)
    (hlo : lo v ≤ x) (hhi : x < hi v) : l.find? (fun w => decide (x < hi w)) = some v := by
  induction l with
  | nil => cases hv
  | cons u l ih =>
    rcases List.mem_cons.1 hv with rfl | hv
    · rw [List.find?_cons_of_pos (by simpa using hhi)]
    · have hu : hi u ≤ x := le_trans ((List.pairwise_cons.1 h.apart).1 v hv) hlo
      rw [List.find?_cons_of_neg (by simpa using hu), ih h.tail hv]

/-- Two intervals that do not meet. -/
def Apart (lo hi : α → β) (v w : α) : Prop := hi v ≤ lo w ∨ hi w ≤ lo v

/-- An interval meets none of the list when the first one that ends above its start begins
at or above its end. -/
theorem Separated.apart_of_find? {l : List α} (h : Separated lo hi l) {v : α}
    (hf : ∀ w, l.find? (fun w => decide (lo v < hi w)) = some w → hi v ≤ lo w) :
    ∀ w ∈ l, Apart lo hi v w := by
  induction l with
  | nil => simp
  | cons u l ih =>
    have hall := (List.pairwise_cons.1 h.apart).1
    by_cases hx : lo v < hi u
    · have hu : hi v ≤ lo u := hf u (List.find?_cons_of_pos (by simpa using hx))
      intro w hw
      rcases List.mem_cons.1 hw with rfl | hw
      · exact Or.inl hu
      · left
        calc hi v ≤ lo u := hu
          _ ≤ hi u := (h.proper u List.mem_cons_self).le
          _ ≤ lo w := hall w hw
    · intro w hw
      rcases List.mem_cons.1 hw with rfl | hw
      · exact Or.inr (not_lt.1 hx)
      · apply ih h.tail _ w hw
        intro w' hw'
        apply hf
        rw [List.find?_cons_of_neg (by simpa using hx)]
        exact hw'

/-- An interval between two neighbours of the list meets none of it. -/
theorem Separated.apart_of_neighbours {b a : List α} {v : α} (h : Separated lo hi (b ++ a))
    (hb : ∀ u ∈ b.getLast?, hi u ≤ lo v) (ha : ∀ u ∈ a.head?, hi v ≤ lo u) :
    ∀ w ∈ b ++ a, Apart lo hi v w := by
  obtain ⟨hpb, hpa, -⟩ := List.pairwise_append.1 h.apart
  intro w hw
  rcases List.mem_append.1 hw with hw | hw
  · right
    obtain ⟨u, hu⟩ : ∃ u, b.getLast? = some u :=
      ⟨_, List.getLast?_eq_some_getLast (List.ne_nil_of_mem hw)⟩
    obtain ⟨b', rfl⟩ := List.getLast?_eq_some_iff.1 hu
    rcases List.mem_append.1 hw with hw' | hw'
    · have hwu := (List.pairwise_append.1 hpb).2.2 w hw' u List.mem_cons_self
      have hu' := h.proper u (List.mem_append_left a (List.mem_append_right b' List.mem_cons_self))
      calc hi w ≤ lo u := hwu
        _ ≤ hi u := hu'.le
        _ ≤ lo v := hb u hu
    · rw [List.mem_singleton.1 hw']
      exact hb u hu
  · left
    obtain ⟨u, a', rfl⟩ := List.exists_cons_of_ne_nil (List.ne_nil_of_mem hw)
    have hu := ha u rfl
    rcases List.mem_cons.1 hw with rfl | hw'
    · exact hu
    · have huw := (List.pairwise_cons.1 hpa).1 w hw'
      have hu' := h.proper u (List.mem_append_right b List.mem_cons_self)
      calc hi v ≤ lo u := hu
        _ ≤ hi u := hu'.le
        _ ≤ lo w := huw

section

variable {l : List α} {v : α}

/-- The list up to the place of a new interval, and from there on. -/
theorem Separated.split (h : Separated lo hi l) (hv : lo v < hi v)
    (hap : ∀ w ∈ l, Apart lo hi v w) :
    (∀ w ∈ l.takeWhile fun w => decide (lo w ≤ lo v), hi w ≤ lo v) ∧
      ∀ w ∈ l.dropWhile fun w => decide (lo w ≤ lo v), hi v ≤ lo w := by
  induction l with
  | nil => simp
  | cons u l ih =>
    have hall := (List.pairwise_cons.1 h.apart).1
    have hrest : ∀ w ∈ l, Apart lo hi v w := fun w hw => hap w (List.mem_cons_of_mem u hw)
    by_cases hu : lo u ≤ lo v
    · obtain ⟨hb, ha⟩ := ih h.tail hrest
      rw [List.takeWhile_cons_of_pos (by simpa using hu),
        List.dropWhile_cons_of_pos (by simpa using hu)]
      refine ⟨?_, ha⟩
      intro w hw
      rcases List.mem_cons.1 hw with rfl | hw
      · rcases hap w List.mem_cons_self with h1 | h1
        · exact absurd (lt_of_lt_of_le hv h1) (not_lt.2 hu)
        · exact h1
      · exact hb w hw
    · rw [List.takeWhile_cons_of_neg (by simpa using hu),
        List.dropWhile_cons_of_neg (by simpa using hu)]
      refine ⟨by simp, ?_⟩
      have hvu : hi v ≤ lo u := by
        rcases hap u List.mem_cons_self with h1 | h1
        · exact h1
        · exact absurd (lt_of_lt_of_le (h.proper u List.mem_cons_self) h1).le hu
      intro w hw
      rcases List.mem_cons.1 hw with rfl | hw
      · exact hvu
      · calc hi v ≤ lo u := hvu
          _ ≤ hi u := (h.proper u List.mem_cons_self).le
          _ ≤ lo w := hall w hw

/-- A new interval that meets none goes in at its place. -/
theorem Separated.insert (h : Separated lo hi l) (hv : lo v < hi v)
    (hap : ∀ w ∈ l, Apart lo hi v w) :
    Separated lo hi ((l.takeWhile fun w => decide (lo w ≤ lo v)) ++
      v :: l.dropWhile fun w => decide (lo w ≤ lo v)) := by
  obtain ⟨hb, ha⟩ := h.split hv hap
  have hsplit := List.takeWhile_append_dropWhile (p := fun w => decide (lo w ≤ lo v)) (l := l)
  have happ := h.apart
  rw [← hsplit, List.pairwise_append] at happ
  obtain ⟨happ1, happ2, happ3⟩ := happ
  constructor
  · intro w hw
    rcases List.mem_append.1 hw with hw | hw
    · exact h.proper w (List.takeWhile_subset _ hw)
    · rcases List.mem_cons.1 hw with rfl | hw
      · exact hv
      · exact h.proper w ((List.dropWhile_suffix _).subset hw)
  · rw [List.pairwise_append, List.pairwise_cons]
    refine ⟨happ1, ⟨ha, happ2⟩, ?_⟩
    intro w hw u hu
    rcases List.mem_cons.1 hu with rfl | hu
    · exact hb w hw
    · exact happ3 w hw u hu

end

end nehcpu.intervals
