/-!
# Ranges of code points

A set of code points as the list of its ranges, first and last, in order. A search stops at the
first range that starts beyond the code point.
-/

namespace Treewalk

def inRanges : List (Nat × Nat) → Nat → Bool
  | [], _ => false
  | (first, last) :: rest, n => first ≤ n && (n ≤ last || inRanges rest n)

/-- The ranges are in order and a gap stands between neighbours. -/
def ascending : List (Nat × Nat) → Bool
  | [] => true
  | [r] => r.1 ≤ r.2
  | r :: s :: rest => r.1 ≤ r.2 && r.2 + 1 < s.1 && ascending (s :: rest)

theorem ascending_tail (r : Nat × Nat) (rest : List (Nat × Nat)) (h : ascending (r :: rest) = true) :
    ascending rest = true := by
  cases rest with
  | nil => rfl
  | cons s rest =>
    simp only [ascending, Bool.and_eq_true] at h
    exact h.2

theorem first_le_of_ascending (rest : List (Nat × Nat)) (r : Nat × Nat)
    (h : ascending (r :: rest) = true) : ∀ s ∈ rest, r.1 ≤ s.1 := by
  induction rest generalizing r with
  | nil => simp
  | cons t rest ih =>
    have ht := ih t (ascending_tail r (t :: rest) h)
    simp only [ascending, Bool.and_eq_true, decide_eq_true_eq] at h
    intro s hs
    rcases List.mem_cons.mp hs with rfl | hs
    · omega
    · have := ht s hs
      omega

/-- The search that stops early misses no range. -/
theorem inRanges_iff (ranges : List (Nat × Nat)) (n : Nat) (h : ascending ranges = true) :
    inRanges ranges n = true ↔ ∃ r ∈ ranges, r.1 ≤ n ∧ n ≤ r.2 := by
  induction ranges with
  | nil => simp [inRanges]
  | cons r rest ih =>
    have hr := first_le_of_ascending rest r h
    simp only [inRanges, Bool.and_eq_true, Bool.or_eq_true, decide_eq_true_eq, List.mem_cons,
      ih (ascending_tail r rest h)]
    constructor
    · rintro ⟨hfirst, hlast | ⟨s, hs, hn⟩⟩
      · exact ⟨r, .inl rfl, hfirst, hlast⟩
      · exact ⟨s, .inr hs, hn⟩
    · rintro ⟨s, rfl | hs, hn⟩
      · exact ⟨hn.1, .inl hn.2⟩
      · exact ⟨Nat.le_trans (hr s hs) hn.1, .inr ⟨s, hs, hn⟩⟩

end Treewalk
