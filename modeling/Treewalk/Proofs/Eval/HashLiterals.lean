import Treewalk.Eval.Evaluate
import Treewalk.Proofs.Runs
import Treewalk.Proofs.Value.LastFiled

/-!
# Hash literals

A hash literal evaluates its keys and values in order and files them. What it holds, how it prints
and whether the order matters is then a question of which pair is the last under each hash key.
-/

namespace Treewalk

namespace Eval

/-- The objects of a key and of its value. -/
def both (eval : Expr → Eval Object) (p : Expr × Expr) : Eval (Object × Object) := do
  let key ← eval p.1
  let value ← eval p.2
  return (key, value)

variable {eval : Expr → Eval Object} {ps : List (Expr × Expr)} {kvs : List (Object × Object)}
  {m m' : Machine}

theorem pairs_ends (h : ps.mapM (both eval) m = some (.ok kvs, m'))
    (hkeys : ∀ kv ∈ kvs, kv.1.hashKey? ≠ none) (es : List (Entry Object)) :
    pairs eval es ps m = some (.ok (kvs.foldl Entry.file es), m') := by
  induction ps generalizing m kvs es with
  | nil =>
    rw [List.mapM_nil] at h
    cases h
    rfl
  | cons p ps ih =>
    rw [List.mapM_cons, both, bind_assoc] at h
    rcases Run.bind_ends h with ⟨_, -, hr⟩ | ⟨key, m₁, hkey, h⟩
    · cases hr
    rw [bind_assoc] at h
    rcases Run.bind_ends h with ⟨_, -, hr⟩ | ⟨value, m₂, hvalue, h⟩
    · cases hr
    rw [pure_bind] at h
    rcases Run.bind_ends h with ⟨_, -, hr⟩ | ⟨rest, m₃, hrest, h⟩
    · cases hr
    cases h
    obtain ⟨hhead, htail⟩ := List.forall_mem_cons.1 hkeys
    obtain ⟨k, hk⟩ := Option.ne_none_iff_exists'.1 hhead
    have hfile : Entry.file es (key, value) = Entry.insert ⟨k, key, value⟩ es := by
      rw [Entry.file, hk]
    rw [pairs, Run.bind_ok hkey]
    simp only [hk]
    rw [Run.bind_ok hvalue, ← hfile, List.foldl_cons]
    exact ih hrest htail _

theorem hash_literal_ends {n : Nat} {s : ScopeId} {token : Token}
    (h : ps.mapM (both (expression n s)) m = some (.ok kvs, m'))
    (hkeys : ∀ kv ∈ kvs, kv.1.hashKey? ≠ none) :
    expression (n + 1) s (.hash token ps) m = some (.ok (Object.ofPairs kvs), m') := by
  rw [expression, Run.bind_ok (pairs_ends h hkeys []), Object.ofPairs_eq, Run.pure_apply]

end Eval

/-! ## Keys -/

namespace Object

/-- What may be a key: integers, booleans and strings. -/
def Hashable (o : Object) : Prop := o.kind = .integer ∨ o.kind = .boolean ∨ o.kind = .string

instance (o : Object) : Decidable o.Hashable := inferInstanceAs (Decidable (_ ∨ _))

theorem hashKey?_ne_none_iff (o : Object) : o.hashKey? ≠ none ↔ o.Hashable := by
  cases o <;> simp [hashKey?, Hashable, kind]

variable {a b : Object} {i j : HashKey}

theorem kind_of_hashKey? (h : a.hashKey? = some i) : i.kind = a.kind := by
  cases a <;> cases h <;> rfl

theorem hashKey?_inj (hkind : a.kind ≠ .string) (ha : a.hashKey? ≠ none) :
    a.hashKey? = b.hashKey? ↔ a = b := by
  refine ⟨fun h => ?_, fun h => h ▸ rfl⟩
  cases a <;> cases b <;> simp_all [hashKey?, kind]

end Object

/-! ## Display -/

/-- The first object is filed before the second one: by their kinds, integers before booleans before
strings, and within a kind by the unsigned words of their hash keys. -/
def FiledBefore (a b : Object) : Prop :=
  ∃ i j, a.hashKey? = some i ∧ b.hashKey? = some j ∧
    (i.rank < j.rank ∨ i.rank = j.rank ∧ i.word < j.word)

theorem BuiltFrom.display {kvs : List (Object × Object)} {es : List (Entry Object)}
    (h : BuiltFrom kvs es) : ∃ listed : List (Object × Object),
      (Object.hash es).display =
        braced (commaSeparated (listed.map fun kv => kv.1.display ++ ": " ++ kv.2.display)) ∧
      listed.Pairwise (fun kv kv' => FiledBefore kv.1 kv'.1) ∧
      ∀ kv, kv ∈ listed ↔ ∃ i, lastUnder i kvs = some kv := by
  have hkey {e : Entry Object} (he : e ∈ es) : e.key.hashKey? = some e.hashKey :=
    (lastUnder_mem (h.mem_iff.1 he)).2
  refine ⟨es.map fun e => (e.key, e.value), ?_, ?_, fun kv => ?_⟩
  · rw [Object.display, displayEntries_eq_map, List.map_map]
    rfl
  · refine List.pairwise_map.2 (h.filed.imp_of_mem fun he he' hlt => ?_)
    exact ⟨_, _, hkey he, hkey he', HashKey.precedes_iff.1 hlt⟩
  · constructor
    · intro hmem
      obtain ⟨e, he, rfl⟩ := List.mem_map.1 hmem
      exact ⟨e.hashKey, h.mem_iff.1 he⟩
    · rintro ⟨i, hlast⟩
      exact List.mem_map.2 ⟨⟨i, kv.1, kv.2⟩, h.mem_iff.2 hlast, rfl⟩

/-- Of a hash literal whose keys are integers, booleans and strings: an index gives the value of the
last pair with the hash key of the index, and null where there is none; there is one entry for each
hash key; the last pairs under each of them are printed, in order; and pairs whose hash keys do not
repeat make an equal hash in any order. Keys of different kinds never have the same hash key, and
equal integers and booleans alone do. -/
theorem hash_literals {n : Nat} {s : ScopeId} {token : Token} {ps : List (Expr × Expr)}
    {kvs : List (Object × Object)} {m m' : Machine}
    (h : ps.mapM (Eval.both (Eval.expression n s)) m = some (.ok kvs, m'))
    (hkeys : ∀ kv ∈ kvs, kv.1.Hashable) :
    ∃ es, Eval.expression (n + 1) s (.hash token ps) m = some (.ok (.hash es), m') ∧
      (∀ (k : Object) (i : HashKey), k.hashKey? = some i →
        (Object.hash es).index k = .ok (((lastUnder i kvs).map (·.2)).getD .null)) ∧
      (es.map (·.hashKey)).Perm (kvs.filterMap (·.1.hashKey?)).dedup ∧
      (∃ listed : List (Object × Object),
        (Object.hash es).display =
          braced (commaSeparated (listed.map fun kv => kv.1.display ++ ": " ++ kv.2.display)) ∧
        listed.Pairwise (fun kv kv' => FiledBefore kv.1 kv'.1) ∧
        ∀ kv, kv ∈ listed ↔ ∃ i, lastUnder i kvs = some kv) ∧
      (∀ kvs', kvs'.Perm kvs → (kvs.map (·.1.hashKey?)).Nodup →
        (Object.ofPairs kvs').same (.hash es) ∧
          (Object.ofPairs kvs').display = (Object.hash es).display) ∧
      ∀ (a b : Object) (i j : HashKey), a.hashKey? = some i → b.hashKey? = some j →
        (a.kind ≠ b.kind → i ≠ j) ∧ (a.kind ≠ .string → (i = j ↔ a = b)) := by
  have hall : ∀ kv ∈ kvs, kv.1.hashKey? ≠ none := fun kv hkv =>
    kv.1.hashKey?_ne_none_iff.2 (hkeys kv hkv)
  have hbuilt := builtFrom_file kvs
  refine ⟨kvs.foldl Entry.file [], Eval.hash_literal_ends h hall, fun k i hk => hbuilt.index hk,
    hbuilt.hashKeys_perm, hbuilt.display, fun kvs' hp hnodup => ?_, fun a b i j ha hb => ⟨?_, ?_⟩⟩
  · rw [Object.ofPairs_eq, hbuilt.eq_of_perm (builtFrom_file kvs') hp hnodup]
    exact ⟨(Object.same_iff _ _).2 rfl, rfl⟩
  · rintro hkind rfl
    exact hkind ((Object.kind_of_hashKey? ha).symm.trans (Object.kind_of_hashKey? hb))
  · intro hkind
    rw [← Object.hashKey?_inj hkind (by simp [ha]), ha, hb, Option.some_inj]

/-- A key that comes twice, and a negative one: the later pair stands under `2`, and `-1` behind it
as an unsigned word. -/
theorem hash_literals_repeated :
    let token (kind : TokenKind) (text : String) : Token := ⟨kind, text, 1⟩
    let number (n : Int64) : Expr := .integer (token .int "") n
    let ps : List (Expr × Expr) := [(.prefixed (token .minus "-") .negate (number 1), number 10),
      (number 2, number 20), (.boolean (token .trueWord "true") true, number 30),
      (number 2, number 40)]
    let kvs : List (Object × Object) := [(.integer (-1), .integer 10), (.integer 2, .integer 20),
      (.boolean true, .integer 30), (.integer 2, .integer 40)]
    ps.mapM (Eval.both (Eval.expression 2 0)) .empty = some (.ok kvs, .empty) ∧
      (∀ kv ∈ kvs, kv.1.Hashable) ∧
      ∃ es, Eval.expression 3 0 (.hash (token .leftBrace "\x7b") ps) .empty =
          some (.ok (.hash es), .empty) ∧
        (Object.hash es).index (.integer 2) = .ok (.integer 40) ∧
        (Object.hash es).index (.boolean false) = .ok .null ∧ es.length = 3 := by
  intro token number ps kvs
  have heval : ps.mapM (Eval.both (Eval.expression 2 0)) .empty = some (.ok kvs, .empty) := rfl
  have hkeys : ∀ kv ∈ kvs, kv.1.Hashable := by decide
  let brace := token .leftBrace "\x7b"
  obtain ⟨es, hes, hindex, hperm, -⟩ := @hash_literals 2 0 brace ps kvs _ _ heval hkeys
  have hlength := hperm.length_eq
  rw [List.length_map] at hlength
  exact ⟨heval, hkeys, es, hes, hindex (.integer 2) _ rfl, hindex (.boolean false) _ rfl, hlength⟩

end Treewalk
