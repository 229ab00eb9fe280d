import Mathlib.Data.List.Basic
import Treewalk.Value.Object

/-!
# How hashes file their pairs

The order of hash keys is a strict linear order. A hash built from pairs has its entries in that
order, each under the hash key of its own key, and filing these again gives the same entries.
-/

namespace Treewalk

namespace HashKey

variable {a b c : HashKey}

theorem precedes_iff : a.precedes b ↔ a.rank < b.rank ∨ a.rank = b.rank ∧ a.word < b.word := by
  simp [precedes]

theorem precedes_irrefl (a : HashKey) : ¬a.precedes a := by
  rw [precedes_iff]
  rintro (h | ⟨-, h⟩)
  · exact Nat.lt_irrefl _ h
  · exact UInt64.lt_irrefl _ h

theorem precedes_trans (hab : a.precedes b) (hbc : b.precedes c) : a.precedes c := by
  rw [precedes_iff] at *
  rcases hab with hab | ⟨hab, hab'⟩ <;> rcases hbc with hbc | ⟨hbc, hbc'⟩
  · exact .inl (Nat.lt_trans hab hbc)
  · exact .inl (hbc ▸ hab)
  · exact .inl (hab ▸ hbc)
  · exact .inr ⟨hab.trans hbc, UInt64.lt_trans hab' hbc'⟩

theorem eq_of_rank_of_word (hrank : a.rank = b.rank) (hword : a.word = b.word) : a = b := by
  cases a with
  | integer m =>
    cases b with
    | integer n => exact congrArg integer (Int64.toBitVec_inj.1 (congrArg UInt64.toBitVec hword))
    | _ => cases hrank
  | boolean x =>
    cases b with
    | boolean y => cases x <;> cases y <;> first | rfl | cases hword
    | _ => cases hrank
  | string d =>
    cases b with
    | string d' => exact congrArg string hword
    | _ => cases hrank

theorem precedes_total (h : a ≠ b) : a.precedes b ∨ b.precedes a := by
  rw [precedes_iff, precedes_iff]
  rcases Nat.lt_trichotomy a.rank b.rank with hrank | hrank | hrank
  · exact .inl (.inl hrank)
  · rcases UInt64.lt_or_lt_of_ne fun hword => h (eq_of_rank_of_word hrank hword) with hword | hword
    · exact .inl (.inr ⟨hrank, hword⟩)
    · exact .inr (.inr ⟨hrank.symm, hword⟩)
  · exact .inr (.inl hrank)

end HashKey

namespace Entry

variable {α : Type} {new e : Entry α} {es : List (Entry α)}

/-- The entries are in the order of their hash keys, no two under the same one. -/
def Filed (es : List (Entry α)) : Prop := es.Pairwise fun e f => e.hashKey.precedes f.hashKey

theorem mem_insert (h : e ∈ insert new es) : e = new ∨ e ∈ es := by
  induction es with
  | nil => simpa [insert] using h
  | cons x xs ih =>
    rw [insert] at h
    split at h
    · grind
    · split at h <;> grind

theorem filed_insert (new : Entry α) (h : Filed es) : Filed (insert new es) := by
  induction es with
  | nil => exact List.pairwise_singleton _ _
  | cons x xs ih =>
    obtain ⟨hx, hxs⟩ := List.pairwise_cons.1 h
    rw [insert]
    split
    · rename_i heq
      exact List.pairwise_cons.2 ⟨fun e he => heq ▸ hx e he, hxs⟩
    · rename_i hne
      split
      · rename_i hlt
        refine List.pairwise_cons.2 ⟨List.forall_mem_cons.2 ⟨hlt, fun e he => ?_⟩, h⟩
        exact HashKey.precedes_trans hlt (hx e he)
      · rename_i hge
        refine List.pairwise_cons.2 ⟨fun e he => ?_, ih hxs⟩
        rcases mem_insert he with rfl | he
        · exact (HashKey.precedes_total hne).resolve_right hge
        · exact hx e he

theorem insert_eq_cons (h : ∀ e ∈ es, new.hashKey.precedes e.hashKey) :
    insert new es = new :: es := by
  cases es with
  | nil => rfl
  | cons x xs =>
    have hx := h x List.mem_cons_self
    have hne : x.hashKey ≠ new.hashKey := fun heq => HashKey.precedes_irrefl _ (heq ▸ hx)
    rw [insert, if_neg hne, if_pos hx]

theorem insert_eq_snoc (h : ∀ e ∈ es, e.hashKey.precedes new.hashKey) :
    insert new es = es ++ [new] := by
  induction es with
  | nil => rfl
  | cons x xs ih =>
    obtain ⟨hx, hxs⟩ := List.forall_mem_cons.1 h
    have hne : x.hashKey ≠ new.hashKey := fun heq => HashKey.precedes_irrefl _ (heq ▸ hx)
    have hge : ¬new.hashKey.precedes x.hashKey := fun hlt =>
      HashKey.precedes_irrefl _ (HashKey.precedes_trans hx hlt)
    rw [insert, if_neg hne, if_neg hge, ih hxs, List.cons_append]

end Entry

/-- Entries in order, each under the hash key of its key. -/
structure Entry.InPlace (es : List (Entry Object)) : Prop where
  filed : Entry.Filed es
  keyed : ∀ e ∈ es, e.key.hashKey? = some e.hashKey

theorem Entry.InPlace.nil : Entry.InPlace [] := ⟨.nil, by simp⟩

theorem Entry.InPlace.insert {es : List (Entry Object)} (h : Entry.InPlace es)
    {key value : Object} {k : HashKey} (hkey : key.hashKey? = some k) :
    Entry.InPlace (Entry.insert ⟨k, key, value⟩ es) where
  filed := Entry.filed_insert _ h.filed
  keyed := fun e he => by
    rcases Entry.mem_insert he with rfl | he
    · exact hkey
    · exact h.keyed e he

/-- Entries in place, each of them one of the pairs. -/
structure FiledFrom (pairs : List (Object × Object)) (es : List (Entry Object)) : Prop
    extends Entry.InPlace es where
  listed : ∀ e ∈ es, (e.key, e.value) ∈ pairs

theorem FiledFrom.insert {pairs : List (Object × Object)} {es : List (Entry Object)}
    (h : FiledFrom pairs es) {key value : Object} (hmem : (key, value) ∈ pairs) {k : HashKey}
    (hkey : key.hashKey? = some k) : FiledFrom pairs (Entry.insert ⟨k, key, value⟩ es) where
  toInPlace := h.toInPlace.insert hkey
  listed := fun e he => by
    rcases Entry.mem_insert he with rfl | he
    · exact hmem
    · exact h.listed e he

theorem Object.ofPairs_filed (pairs : List (Object × Object)) :
    ∃ es, ofPairs pairs = .hash es ∧ FiledFrom pairs es := by
  refine ⟨_, rfl, List.foldlRecOn pairs _ ⟨.nil, by simp⟩ fun es h p hp => ?_⟩
  obtain ⟨key, value⟩ := p
  cases hkey : key.hashKey? with
  | none => simpa [hkey] using h
  | some k => simpa [hkey] using h.insert hp hkey

end Treewalk
