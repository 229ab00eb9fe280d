import Treewalk.Eval.Evaluate

/-!
# String keys and their digests

Hashes know a string key by its digest. Keys with different digests are kept apart, and keys with
the same one are the same key, which happens to strings that differ.
-/

namespace Treewalk

/-- A string filed under its digest. -/
def Entry.ofString (s : String) (v : Object) : Entry Object := ⟨.string (digest s), .string s, v⟩

variable {n : Nat} {k : ScopeId} {u : Token} {k₁ x₁ k₂ x₂ : Expr} {m m₁ m₂ m₃ m₄ : Machine}

theorem index_insert_ofString (s t : String) (v : Object) (es : List (Entry Object)) :
    (Object.hash (Entry.insert (.ofString s v) es)).index (.string t) =
      if digest s = digest t then .ok v else (Object.hash es).index (.string t) := by
  let new := Entry.ofString s v
  simp only [Object.index, Object.hashKey?]
  split
  · rename_i heq
    have hkey : HashKey.string (digest t) = new.hashKey := congrArg HashKey.string heq.symm
    rw [hkey, Entry.find?_insert_self]
    rfl
  · rename_i hne
    have hkey : new.hashKey ≠ .string (digest t) := fun heq => hne (HashKey.string.inj heq)
    rw [Entry.find?_insert_of_ne hkey]

theorem length_insert_singleton {α : Type} (new e : Entry α) :
    (Entry.insert new [e]).length = if e.hashKey = new.hashKey then 1 else 2 := by
  rw [Entry.insert, Entry.insert]
  split
  · rfl
  · split <;> rfl

theorem Eval.hash_literal_two {s t : String} {v w : Object}
    (hs : expression n k k₁ m = some (.ok (.string s), m₁))
    (hv : expression n k x₁ m₁ = some (.ok v, m₂))
    (ht : expression n k k₂ m₂ = some (.ok (.string t), m₃))
    (hw : expression n k x₂ m₃ = some (.ok w, m₄)) :
    expression (n + 1) k (.hash u [(k₁, x₁), (k₂, x₂)]) m =
      some (.ok (.hash (Entry.insert (.ofString t w) [.ofString s v])), m₄) := by
  have hpairs : pairs (expression n k) [] [(k₁, x₁), (k₂, x₂)] m =
      some (.ok (Entry.insert (.ofString t w) [.ofString s v]), m₄) := by
    rw [pairs, Run.bind_ok hs]
    simp only [Object.hashKey?]
    rw [Run.bind_ok hv, pairs, Run.bind_ok ht]
    simp only [Object.hashKey?]
    rw [Run.bind_ok hw, pairs, Entry.insert, Entry.ofString, Entry.ofString, Run.pure_apply]
  rw [expression, Run.bind_ok hpairs, Run.pure_apply]

theorem index_ofPairs_singleton (s t : String) (v : Object) :
    (Object.ofPairs [(.string s, v)]).index (.string t) =
      .ok (if digest s = digest t then v else .null) := by
  have hsingle : Object.ofPairs [(.string s, v)] = .hash (Entry.insert (.ofString s v) []) := by
    simp [Object.ofPairs, Object.hashKey?, Entry.ofString]
  have hempty : (Object.hash []).index (.string t) = .ok .null := by
    simp [Object.index, Object.hashKey?, Entry.find?]
  rw [hsingle, index_insert_ofString, hempty]
  split <;> rfl

/-- Two strings are one key or two as their digests are the same or not: for the hash with a single
pair, and for a hash literal with both of them as keys. -/
theorem string_keys_by_digest (s t : String) (v : Object) :
    (Object.ofPairs [(.string s, v)]).index (.string t) =
        .ok (if digest s = digest t then v else .null) ∧
      ∀ n k u k₁ x₁ k₂ x₂ m m₁ m₂ m₃ m₄ w,
        Eval.expression n k k₁ m = some (.ok (.string s), m₁) →
        Eval.expression n k x₁ m₁ = some (.ok v, m₂) →
        Eval.expression n k k₂ m₂ = some (.ok (.string t), m₃) →
        Eval.expression n k x₂ m₃ = some (.ok w, m₄) →
        ∃ es, Eval.expression (n + 1) k (.hash u [(k₁, x₁), (k₂, x₂)]) m =
            some (.ok (.hash es), m₄) ∧ es.length = if digest s = digest t then 1 else 2 := by
  refine ⟨index_ofPairs_singleton s t v, ?_⟩
  intro n k u k₁ x₁ k₂ x₂ m m₁ m₂ m₃ m₄ w hs hv ht hw
  refine ⟨_, Eval.hash_literal_two hs hv ht hw, ?_⟩
  rw [length_insert_singleton]
  simp [Entry.ofString]

/-- Different digests: the one key does not find the value of the other, and two pairs are filed. -/
theorem string_keys_by_digest_apart :
    let key (s : String) : Expr := .string ⟨.string, s, 1⟩
    let one : Expr := .integer ⟨.int, "1", 1⟩ 1
    (Object.ofPairs [(.string "a", .integer 1)]).index (.string "b") = .ok .null ∧
      ∃ es, Eval.expression 2 0 (.hash ⟨.leftBrace, "\x7b", 1⟩ [(key "a", one), (key "b", one)])
        .empty = some (.ok (.hash es), .empty) ∧ es.length = 2 := by
  intro key one
  have hdigest : digest "a" ≠ digest "b" := by decide +kernel
  obtain ⟨hindex, hliteral⟩ := string_keys_by_digest "a" "b" (.integer 1)
  obtain ⟨es, heval, hlength⟩ := hliteral 1 0 ⟨.leftBrace, "\x7b", 1⟩ (key "a") one (key "b") one
    .empty .empty .empty .empty .empty (.integer 1) rfl rfl rfl rfl
  rw [if_neg hdigest] at hindex hlength
  exact ⟨hindex, es, heval, hlength⟩

/-- Two strings of sixteen bytes each with the same digest. The value of the one is found under the
other, and as keys of a hash literal they leave one pair. -/
theorem string_keys_collide :
    let s := "^\u00cem8fvCK\u0692k-InD"
    let t := "\u0721A\ud2e9Hs\u0278]\ub786Pt"
    let key (s : String) : Expr := .string ⟨.string, s, 1⟩
    let one : Expr := .integer ⟨.int, "1", 1⟩ 1
    s ≠ t ∧ (Object.ofPairs [(.string s, .integer 1)]).index (.string t) = .ok (.integer 1) ∧
      ∃ es, Eval.expression 2 0 (.hash ⟨.leftBrace, "\x7b", 1⟩ [(key s, one), (key t, one)])
        .empty = some (.ok (.hash es), .empty) ∧ es.length = 1 := by
  intro s t key one
  have hdigest : digest s = digest t := by decide +kernel
  have hindex := index_ofPairs_singleton s t (.integer 1)
  rw [if_pos hdigest] at hindex
  have hkey (s : String) :
      Eval.expression 1 0 (key s) .empty = some (.ok (.string s), .empty) := rfl
  have hone : Eval.expression 1 0 one .empty = some (.ok (.integer 1), .empty) := rfl
  refine ⟨by decide, hindex, _, Eval.hash_literal_two (hkey s) hone (hkey t) hone, ?_⟩
  rw [length_insert_singleton]
  simp [Entry.ofString, hdigest]

end Treewalk
