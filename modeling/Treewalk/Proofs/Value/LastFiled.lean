import Mathlib.Data.List.Dedup
import Mathlib.Data.List.Induction
import Treewalk.Eval.Operators
import Treewalk.Proofs.Value.Filing
import Treewalk.Value.Display

/-!
# What is filed last is found

Of the pairs of a hash with one hash key the last one stands under it, key and all. As the entries
are in order, what is found under each hash key settles all of them.
-/

namespace Treewalk

namespace Entry

variable {α : Type} {e : Entry α} {es fs : List (Entry α)} {k : HashKey}

/-! ## Entries in order -/

/-- No two entries have one hash key. -/
def Table (es : List (Entry α)) : Prop := (es.map (·.hashKey)).Nodup

theorem Filed.table (h : Filed es) : Table es := by
  refine List.pairwise_map.2 (h.imp fun {a b} hlt heq => ?_)
  rw [heq] at hlt
  exact HashKey.precedes_irrefl _ hlt

theorem find?_isSome : (find? k es).isSome ↔ k ∈ es.map (·.hashKey) := by
  simp [find?]

theorem Table.find?_eq_some_iff (h : Table es) : find? k es = some e ↔ e ∈ es ∧ e.hashKey = k := by
  constructor
  · intro hfind
    exact ⟨List.mem_of_find?_eq_some hfind, by simpa using List.find?_some hfind⟩
  · rintro ⟨hmem, rfl⟩
    obtain ⟨f, hfind⟩ := Option.isSome_iff_exists.1 (find?_isSome.2 (List.mem_map_of_mem hmem))
    have hkey : f.hashKey = e.hashKey := by simpa using List.find?_some hfind
    rw [hfind, List.inj_on_of_nodup_map h (List.mem_of_find?_eq_some hfind) hmem hkey]

theorem Table.perm (h : Table es) (hp : fs.Perm es) : Table fs := (hp.map _).nodup_iff.2 h

theorem Table.find?_perm (h : Table es) (hp : fs.Perm es) : find? k fs = find? k es := by
  ext e
  rw [(h.perm hp).find?_eq_some_iff, h.find?_eq_some_iff, hp.mem_iff]

theorem Filed.ext (h : Filed es) (h' : Filed fs) (heq : ∀ k, find? k es = find? k fs) :
    es = fs := by
  have hmem (e : Entry α) : e ∈ es ↔ e ∈ fs := by
    have hes := h.table.find?_eq_some_iff (e := e) (k := e.hashKey)
    have hfs := h'.table.find?_eq_some_iff (e := e) (k := e.hashKey)
    rw [heq] at hes
    simpa using hes.symm.trans hfs
  have hperm : es.Perm fs := (List.perm_ext_iff_of_nodup (h.table.of_map _)
    (h'.table.of_map _)).2 hmem
  refine hperm.eq_of_pairwise (fun a b _ _ hab hba => ?_) h h'
  exact absurd (HashKey.precedes_trans hab hba) (HashKey.precedes_irrefl _)

/-- Files a pair under the hash key of its key, if that has one. -/
def file (es : List (Entry Object)) (kv : Object × Object) : List (Entry Object) :=
  match kv.1.hashKey? with
  | some k => insert ⟨k, kv.1, kv.2⟩ es
  | none => es

end Entry

theorem Object.ofPairs_eq (kvs : List (Object × Object)) :
    ofPairs kvs = .hash (kvs.foldl Entry.file []) := rfl

/-! ## The last pair under a hash key -/

/-- The last of the pairs whose key has this hash key. -/
def lastUnder (k : HashKey) (kvs : List (Object × Object)) : Option (Object × Object) :=
  kvs.reverse.find? fun kv => kv.1.hashKey? = some k

section LastUnder

variable {k : HashKey} {kv : Object × Object} {kvs kvs' : List (Object × Object)}

theorem lastUnder_snoc : lastUnder k (kvs ++ [kv]) =
    if kv.1.hashKey? = some k then some kv else lastUnder k kvs := by
  rw [lastUnder, List.reverse_append, List.reverse_singleton, List.singleton_append,
    List.find?_cons]
  by_cases hk : kv.1.hashKey? = some k
  · simp [hk]
  · simp [hk, lastUnder]

theorem lastUnder_mem (h : lastUnder k kvs = some kv) : kv ∈ kvs ∧ kv.1.hashKey? = some k := by
  unfold lastUnder at h
  exact ⟨List.mem_reverse.1 (List.mem_of_find?_eq_some h), by simpa using List.find?_some h⟩

theorem lastUnder_isSome : (lastUnder k kvs).isSome ↔ ∃ kv ∈ kvs, kv.1.hashKey? = some k := by
  simp [lastUnder]

theorem lastUnder_eq_some_iff (h : (kvs.map (·.1.hashKey?)).Nodup) :
    lastUnder k kvs = some kv ↔ kv ∈ kvs ∧ kv.1.hashKey? = some k := by
  refine ⟨lastUnder_mem, fun ⟨hmem, hk⟩ => ?_⟩
  obtain ⟨other, hother⟩ := Option.isSome_iff_exists.1 (lastUnder_isSome.2 ⟨kv, hmem, hk⟩)
  obtain ⟨hmem', hk'⟩ := lastUnder_mem hother
  rw [hother, List.inj_on_of_nodup_map h hmem' hmem (hk'.trans hk.symm)]

theorem lastUnder_perm (hp : kvs'.Perm kvs) (h : (kvs.map (·.1.hashKey?)).Nodup) :
    lastUnder k kvs' = lastUnder k kvs := by
  have h' : (kvs'.map (·.1.hashKey?)).Nodup := (hp.map _).nodup_iff.2 h
  ext kv
  rw [lastUnder_eq_some_iff h', lastUnder_eq_some_iff h, hp.mem_iff]

end LastUnder

/-! ## Hashes of pairs -/

section Pairs

variable {k : HashKey} {kvs kvs' : List (Object × Object)} {es es' : List (Entry Object)}

theorem find?_foldl_file : Entry.find? k (kvs.foldl Entry.file []) =
    (lastUnder k kvs).map fun kv => ⟨k, kv.1, kv.2⟩ := by
  induction kvs using List.reverseRecOn with
  | nil => rfl
  | append_singleton kvs kv ih =>
    rw [List.foldl_append, List.foldl_cons, List.foldl_nil, lastUnder_snoc, Entry.file]
    cases hkv : kv.1.hashKey? with
    | none => simpa using ih
    | some j =>
      by_cases hj : j = k
      · subst hj
        simp [Entry.find?_insert_self ⟨j, kv.1, kv.2⟩]
      · have hne : (Entry.mk j kv.1 kv.2).hashKey ≠ k := hj
        simpa [Entry.find?_insert_of_ne hne, hj] using ih

/-- The entries of a hash that is built from pairs. -/
structure BuiltFrom (kvs : List (Object × Object)) (es : List (Entry Object)) : Prop where
  filed : Entry.Filed es
  found : ∀ k, Entry.find? k es = (lastUnder k kvs).map fun kv => ⟨k, kv.1, kv.2⟩

theorem builtFrom_file (kvs : List (Object × Object)) :
    BuiltFrom kvs (kvs.foldl Entry.file []) := by
  obtain ⟨es, heq, hfiled⟩ := Object.ofPairs_filed kvs
  cases heq
  exact ⟨hfiled.filed, fun k => find?_foldl_file⟩

namespace BuiltFrom

theorem index (h : BuiltFrom kvs es) {o : Object} (ho : o.hashKey? = some k) :
    (Object.hash es).index o = .ok (((lastUnder k kvs).map (·.2)).getD .null) := by
  simp only [Object.index, ho, h.found, Option.map_map]
  rfl

theorem mem_iff (h : BuiltFrom kvs es) {e : Entry Object} :
    e ∈ es ↔ lastUnder e.hashKey kvs = some (e.key, e.value) := by
  have hfind := h.filed.table.find?_eq_some_iff (e := e) (k := e.hashKey)
  rw [h.found, Option.map_eq_some_iff] at hfind
  refine ⟨fun hmem => ?_, fun hlast => (hfind.1 ⟨_, hlast, rfl⟩).1⟩
  obtain ⟨kv, hlast, heq⟩ := hfind.2 ⟨hmem, rfl⟩
  rw [hlast, ← heq]

theorem hashKeys_perm (h : BuiltFrom kvs es) :
    (es.map (·.hashKey)).Perm (kvs.filterMap (·.1.hashKey?)).dedup := by
  refine (List.perm_ext_iff_of_nodup h.filed.table (List.nodup_dedup _)).2 fun k => ?_
  rw [List.mem_dedup, List.mem_filterMap, ← lastUnder_isSome, List.mem_map]
  constructor
  · rintro ⟨e, he, rfl⟩
    rw [h.mem_iff.1 he]
    rfl
  · intro hlast
    obtain ⟨kv, hkv⟩ := Option.isSome_iff_exists.1 hlast
    exact ⟨⟨k, kv.1, kv.2⟩, h.mem_iff.2 hkv, rfl⟩

theorem eq_of_perm (h : BuiltFrom kvs es) (h' : BuiltFrom kvs' es') (hp : kvs'.Perm kvs)
    (hkeys : (kvs.map (·.1.hashKey?)).Nodup) : es' = es := by
  refine h'.filed.ext h.filed fun k => ?_
  rw [h'.found, h.found, lastUnder_perm hp hkeys]

end BuiltFrom

theorem displayEntries_eq_map (es : List (Entry Object)) :
    displayEntries es = es.map fun e => e.key.display ++ ": " ++ e.value.display := by
  induction es with
  | nil => rfl
  | cons e es ih => rw [displayEntries, List.map_cons, ih]

end Pairs

end Treewalk
