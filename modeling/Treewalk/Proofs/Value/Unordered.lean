import Mathlib.Data.List.Perm.Subperm
import Treewalk.Proofs.Eval.Parts
import Treewalk.Proofs.Value.LastFiled
import Treewalk.Proofs.Value.Messages
import Treewalk.Value.Equality

/-!
# Objects in any order

A table has its entries in no order: two are equal if they have as many entries and all of one are
found in the other, and they print in the order of hash keys. Objects with tables for hashes are
equal just if they are the same once all their entries are put in order.
-/

namespace Treewalk

/-! ## Equality by look-ups -/

mutual

/-- Equality of objects whose hashes have their entries in any order. Functions are equal by
identity, built-in functions by name. -/
def Object.equals : Object → Object → Bool
  | .integer m, .integer n => m = n
  | .boolean a, .boolean b => a = b
  | .string s, .string t => s = t
  | .null, .null => true
  | .array as, .array bs => equalObjects as bs
  | .hash es, .hash fs => es.length = fs.length && foundEqual es fs
  | .function c, .function d => c.identity = d.identity
  | .builtin a, .builtin b => a.name = b.name
  | .error a, .error b => a = b
  | .returning a, .returning b => a.equals b
  | _, _ => false

def equalObjects : List Object → List Object → Bool
  | [], [] => true
  | a :: as, b :: bs => a.equals b && equalObjects as bs
  | _, _ => false

/-- All entries are found in `fs`, with equal keys and values. -/
def foundEqual : List (Entry Object) → List (Entry Object) → Bool
  | [], _ => true
  | ⟨k, key, value⟩ :: es, fs =>
    (match Entry.find? k fs with
      | some f => key.equals f.key && value.equals f.value
      | none => false) && foundEqual es fs

end

/-! ## Entries put in order -/

mutual

/-- The object with the entries of all hashes inside in order. -/
def Object.arranged : Object → Object
  | .array elements => .array (arrangedAll elements)
  | .hash entries => .hash (arrangedEntries entries)
  | .returning value => .returning value.arranged
  | .integer n => .integer n
  | .boolean b => .boolean b
  | .string s => .string s
  | .null => .null
  | .function c => .function c
  | .builtin b => .builtin b
  | .error e => .error e

def arrangedAll : List Object → List Object
  | [] => []
  | o :: os => o.arranged :: arrangedAll os

def arrangedEntries : List (Entry Object) → List (Entry Object)
  | [] => []
  | ⟨k, key, value⟩ :: es => Entry.insert ⟨k, key.arranged, value.arranged⟩ (arrangedEntries es)

end

def Entry.arranged (e : Entry Object) : Entry Object :=
  ⟨e.hashKey, e.key.arranged, e.value.arranged⟩

namespace Object

theorem kind_arranged (o : Object) : o.arranged.kind = o.kind := by
  cases o <;> rfl

theorem truthy_arranged (o : Object) : o.arranged.truthy = o.truthy := by
  cases o <;> rfl

theorem hashKey?_arranged (o : Object) : o.arranged.hashKey? = o.hashKey? := by
  cases o <;> rfl

end Object

theorem arrangedEntries_cons (e : Entry Object) (es : List (Entry Object)) :
    arrangedEntries (e :: es) = Entry.insert e.arranged (arrangedEntries es) := rfl

theorem filed_arrangedEntries (es : List (Entry Object)) : Entry.Filed (arrangedEntries es) := by
  induction es with
  | nil => exact .nil
  | cons e es ih => exact Entry.filed_insert _ ih

theorem find?_arrangedEntries (k : HashKey) (es : List (Entry Object)) :
    Entry.find? k (arrangedEntries es) = (Entry.find? k es).map Entry.arranged := by
  induction es with
  | nil => rfl
  | cons e es ih =>
    rw [arrangedEntries_cons]
    by_cases hk : e.hashKey = k
    · subst hk
      have hself : Entry.find? e.hashKey (Entry.insert e.arranged (arrangedEntries es)) =
        some e.arranged := Entry.find?_insert_self e.arranged (arrangedEntries es)
      rw [hself]
      simp [Entry.find?]
    · have hne : e.arranged.hashKey ≠ k := hk
      rw [Entry.find?_insert_of_ne hne, ih]
      simp [Entry.find?, hk]

theorem arrangedEntries_eq_iff {es fs : List (Entry Object)} :
    arrangedEntries es = arrangedEntries fs ↔
      ∀ k, (Entry.find? k es).map Entry.arranged = (Entry.find? k fs).map Entry.arranged := by
  simp only [← find?_arrangedEntries]
  exact ⟨fun h k => by rw [h], (filed_arrangedEntries es).ext (filed_arrangedEntries fs)⟩

/-! ## Tables -/

theorem Entry.Table.hashKeys_perm {α : Type} {es fs : List (Entry α)} (hes : Table es)
    (hlength : fs.length ≤ es.length) (hsubset : es.map (·.hashKey) ⊆ fs.map (·.hashKey)) :
    (es.map (·.hashKey)).Perm (fs.map (·.hashKey)) :=
  (List.subperm_of_subset hes hsubset).perm_of_length_le (by simpa using hlength)

theorem tables_eq_iff {es fs : List (Entry Object)} (hes : Entry.Table es) (hfs : Entry.Table fs) :
    es.length = fs.length ∧
      (∀ e ∈ es, ∃ f, Entry.find? e.hashKey fs = some f ∧ e.arranged = f.arranged) ↔
    arrangedEntries es = arrangedEntries fs := by
  rw [arrangedEntries_eq_iff]
  constructor
  · rintro ⟨hlength, hfound⟩ k
    have hsubset : es.map (·.hashKey) ⊆ fs.map (·.hashKey) := by
      intro k hk
      obtain ⟨e, he, rfl⟩ := List.mem_map.1 hk
      obtain ⟨f, hf, -⟩ := hfound e he
      exact Entry.find?_isSome.1 (Option.isSome_of_eq_some hf)
    -- as many keys, all of them in the other table, are all that it has
    have hperm := hes.hashKeys_perm (Nat.le_of_eq hlength.symm) hsubset
    cases hfind : Entry.find? k es with
    | some e =>
      have hk : e.hashKey = k := by simpa using List.find?_some hfind
      obtain ⟨f, hf, heq⟩ := hfound e (List.mem_of_find?_eq_some hfind)
      rw [← hk, hf, Option.map_some, Option.map_some, heq]
    | none =>
      have hnone : Entry.find? k fs = none := by
        rw [← Option.not_isSome_iff_eq_none, Entry.find?_isSome, ← hperm.mem_iff,
          ← Entry.find?_isSome, hfind]
        simp
      rw [hnone]
  · intro hsame
    have hkeys (k : HashKey) : k ∈ es.map (·.hashKey) ↔ k ∈ fs.map (·.hashKey) := by
      rw [← Entry.find?_isSome, ← Entry.find?_isSome, ← Option.isSome_map (f := Entry.arranged),
        hsame, Option.isSome_map]
    refine ⟨?_, fun e he => ?_⟩
    · have hperm := (List.perm_ext_iff_of_nodup hes hfs).2 hkeys
      simpa using hperm.length_eq
    · have hfind := hsame e.hashKey
      rw [hes.find?_eq_some_iff.2 ⟨he, rfl⟩, Option.map_some] at hfind
      obtain ⟨f, hf, heq⟩ := Option.map_eq_some_iff.1 hfind.symm
      exact ⟨f, hf, heq.symm⟩

/-- All hashes inside are tables, and each function inside is the one with its identity. -/
def Object.Coherent (functions : Nat → Closure) (o : Object) : Prop :=
  o.Every fun x => (∀ c, x = .function c → functions c.identity = c) ∧
    ∀ es, x = .hash es → Entry.Table es

/-! ## Equality is sameness in order -/

section Equals

variable {functions : Nat → Closure}

mutual

theorem Object.equals_iff : ∀ a b : Object, a.Coherent functions → b.Coherent functions →
    (a.equals b = true ↔ a.arranged = b.arranged)
  | .integer _, b, _, _ => by cases b <;> simp [Object.equals, Object.arranged]
  | .boolean _, b, _, _ => by cases b <;> simp [Object.equals, Object.arranged]
  | .string _, b, _, _ => by cases b <;> simp [Object.equals, Object.arranged]
  | .null, b, _, _ => by cases b <;> simp [Object.equals, Object.arranged]
  | .array as, b, ha, hb => by
    cases b with
    | array bs =>
      have has := (Object.every_array.1 ha).2
      have hbs := (Object.every_array.1 hb).2
      simp [Object.equals, Object.arranged, equalObjects_iff as bs has hbs]
    | _ => simp [Object.equals, Object.arranged]
  | .hash es, b, ha, hb => by
    cases b with
    | hash fs =>
      obtain ⟨⟨-, hes⟩, hins⟩ := Object.every_hash.1 ha
      obtain ⟨⟨-, hfs⟩, hinsb⟩ := Object.every_hash.1 hb
      simp only [Object.equals, Object.arranged, Bool.and_eq_true, decide_eq_true_eq,
        foundEqual_iff es fs hins hinsb, tables_eq_iff (hes es rfl) (hfs fs rfl), Object.hash.injEq]
    | _ => simp [Object.equals, Object.arranged]
  | .function c, b, ha, hb => by
    cases b with
    | function d =>
      have hc := ha.self.1 c rfl
      have hd := hb.self.1 d rfl
      -- functions are compared by identity, which tells coherent ones apart
      have hidentity : c.identity = d.identity ↔ c = d :=
        ⟨fun h => by rw [← hc, ← hd, h], congrArg _⟩
      simp [Object.equals, Object.arranged, hidentity]
    | _ => simp [Object.equals, Object.arranged]
  | .builtin b, o, _, _ => by
    cases o with
    | builtin b' =>
      have hname : b.name = b'.name ↔ b = b' := ⟨Builtin.name_inj, congrArg _⟩
      simp [Object.equals, Object.arranged, hname]
    | _ => simp [Object.equals, Object.arranged]
  | .error _, b, _, _ => by cases b <;> simp [Object.equals, Object.arranged]
  | .returning a, b, ha, hb => by
    cases b with
    | returning b =>
      have ha := (Object.every_returning.1 ha).2
      have hb := (Object.every_returning.1 hb).2
      simp [Object.equals, Object.arranged, Object.equals_iff a b ha hb]
    | _ => simp [Object.equals, Object.arranged]

theorem equalObjects_iff : ∀ as bs : List Object, (∀ a ∈ as, a.Coherent functions) →
    (∀ b ∈ bs, b.Coherent functions) →
      (equalObjects as bs = true ↔ arrangedAll as = arrangedAll bs)
  | [], bs, _, _ => by cases bs <;> simp [equalObjects, arrangedAll]
  | a :: as, bs, has, hbs => by
    cases bs with
    | nil => simp [equalObjects, arrangedAll]
    | cons b bs =>
      obtain ⟨ha, has⟩ := List.forall_mem_cons.1 has
      obtain ⟨hb, hbs⟩ := List.forall_mem_cons.1 hbs
      simp [equalObjects, arrangedAll, Object.equals_iff a b ha hb, equalObjects_iff as bs has hbs]

theorem foundEqual_iff : ∀ es fs : List (Entry Object),
    (∀ e ∈ es, e.key.Coherent functions ∧ e.value.Coherent functions) →
    (∀ f ∈ fs, f.key.Coherent functions ∧ f.value.Coherent functions) →
      (foundEqual es fs = true ↔
        ∀ e ∈ es, ∃ f, Entry.find? e.hashKey fs = some f ∧ e.arranged = f.arranged)
  | [], fs, _, _ => by simp [foundEqual]
  | ⟨k, key, value⟩ :: es, fs, hes, hfs => by
    obtain ⟨⟨hkey, hvalue⟩, hes⟩ := List.forall_mem_cons.1 hes
    rw [foundEqual, Bool.and_eq_true, foundEqual_iff es fs hes hfs, List.forall_mem_cons]
    refine and_congr_left fun _ => ?_
    cases hfind : Entry.find? k fs with
    | none => simp
    | some f =>
      obtain ⟨hfkey, hfvalue⟩ := hfs f (List.mem_of_find?_eq_some hfind)
      have hk : f.hashKey = k := by simpa using List.find?_some hfind
      simp [Entry.arranged, hk, Object.equals_iff key f.key hkey hfkey,
        Object.equals_iff value f.value hvalue hfvalue]

end

/-! ## Objects in order -/

/-- All hashes inside have their entries in order, and each function inside is the one with its
identity. -/
def Object.Ordered (functions : Nat → Closure) (o : Object) : Prop :=
  o.Every fun x => (∀ c, x = .function c → functions c.identity = c) ∧
    ∀ es, x = .hash es → Entry.Filed es

theorem Object.Ordered.coherent {o : Object} (h : o.Ordered functions) : o.Coherent functions :=
  fun x hx => ⟨(h x hx).1, fun es hes => ((h x hx).2 es hes).table⟩

mutual

theorem Object.Ordered.arranged_eq : ∀ {o : Object}, o.Ordered functions → o.arranged = o
  | .array os, h => by rw [Object.arranged, arrangedAll_eq os (Object.every_array.1 h).2]
  | .hash es, h => by
    obtain ⟨⟨-, hfiled⟩, hins⟩ := Object.every_hash.1 h
    rw [Object.arranged, arrangedEntries_eq es (hfiled es rfl) hins]
  | .returning v, h =>
    congrArg Object.returning (Object.Ordered.arranged_eq (Object.every_returning.1 h).2)
  | .integer _, _ | .boolean _, _ | .string _, _ | .null, _ | .function _, _ | .builtin _, _
  | .error _, _ => rfl

theorem arrangedAll_eq : ∀ os : List Object, (∀ o ∈ os, o.Ordered functions) → arrangedAll os = os
  | [], _ => rfl
  | o :: os, h => by
    obtain ⟨ho, hos⟩ := List.forall_mem_cons.1 h
    rw [arrangedAll, ho.arranged_eq, arrangedAll_eq os hos]

theorem arrangedEntries_eq : ∀ es : List (Entry Object), Entry.Filed es →
    (∀ e ∈ es, e.key.Ordered functions ∧ e.value.Ordered functions) → arrangedEntries es = es
  | [], _, _ => rfl
  | ⟨k, key, value⟩ :: es, hfiled, h => by
    obtain ⟨⟨hkey, hvalue⟩, hes⟩ := List.forall_mem_cons.1 h
    obtain ⟨hfirst, hfiled⟩ := List.pairwise_cons.1 hfiled
    rw [arrangedEntries, hkey.arranged_eq, hvalue.arranged_eq, arrangedEntries_eq es hfiled hes,
      Entry.insert_eq_cons hfirst]

end

mutual

theorem Object.Coherent.arranged : ∀ {o : Object}, o.Coherent functions →
    o.arranged.Ordered functions
  | .array os, h =>
    Object.every_array.2 ⟨by simp, ordered_arrangedAll os (Object.every_array.1 h).2⟩
  | .hash es, h => by
    have hins := ordered_arrangedEntries es (Object.every_hash.1 h).2
    refine Object.every_hash.2 ⟨⟨by simp, fun fs hfs => ?_⟩, hins⟩
    exact Object.hash.inj hfs ▸ filed_arrangedEntries es
  | .returning v, h =>
    Object.every_returning.2 ⟨by simp, Object.Coherent.arranged (Object.every_returning.1 h).2⟩
  | .function c, h => by
    have hc := h.self.1 c rfl
    simpa [Object.Ordered, Object.Every, Object.parts, Object.arranged] using hc
  | .integer _, _ | .boolean _, _ | .string _, _ | .null, _ | .builtin _, _ | .error _, _ => by
    simp [Object.Ordered, Object.Every, Object.parts, Object.arranged]

theorem ordered_arrangedAll : ∀ os : List Object, (∀ o ∈ os, o.Coherent functions) →
    ∀ o ∈ arrangedAll os, o.Ordered functions
  | [], _ => by simp [arrangedAll]
  | o :: os, h => by
    obtain ⟨ho, hos⟩ := List.forall_mem_cons.1 h
    exact List.forall_mem_cons.2 ⟨ho.arranged, ordered_arrangedAll os hos⟩

theorem ordered_arrangedEntries : ∀ es : List (Entry Object),
    (∀ e ∈ es, e.key.Coherent functions ∧ e.value.Coherent functions) →
      ∀ e ∈ arrangedEntries es, e.key.Ordered functions ∧ e.value.Ordered functions
  | [], _ => by simp [arrangedEntries]
  | ⟨k, key, value⟩ :: es, h => by
    obtain ⟨⟨hkey, hvalue⟩, hes⟩ := List.forall_mem_cons.1 h
    intro e he
    rcases Entry.mem_insert he with rfl | he
    · exact ⟨hkey.arranged, hvalue.arranged⟩
    · exact ordered_arrangedEntries es hes e he

end

/-! ## What equality is like -/

namespace Object

theorem equals_equivalence (functions : Nat → Closure) :
    Equivalence fun a b : {o : Object // o.Coherent functions} => a.1.equals b.1 = true where
  refl a := (equals_iff a.1 a.1 a.2 a.2).2 rfl
  symm {a b} h := (equals_iff b.1 a.1 b.2 a.2).2 ((equals_iff a.1 b.1 a.2 b.2).1 h).symm
  trans {a b c} h h' := (equals_iff a.1 c.1 a.2 c.2).2
    (((equals_iff a.1 b.1 a.2 b.2).1 h).trans ((equals_iff b.1 c.1 b.2 c.2).1 h'))

theorem alike_of_equals {a b : Object} (ha : a.Coherent functions) (hb : b.Coherent functions)
    (h : a.equals b = true) : a.kind = b.kind ∧ a.truthy = b.truthy ∧ a.hashKey? = b.hashKey? ∧
      a.arranged.display = b.arranged.display := by
  have harranged := (equals_iff a b ha hb).1 h
  refine ⟨?_, ?_, ?_, congrArg display harranged⟩
  · rw [← a.kind_arranged, ← b.kind_arranged, harranged]
  · rw [← a.truthy_arranged, ← b.truthy_arranged, harranged]
  · rw [← a.hashKey?_arranged, ← b.hashKey?_arranged, harranged]

theorem equals_arranged {o : Object} (h : o.Coherent functions) : o.equals o.arranged = true :=
  (equals_iff o o.arranged h h.arranged.coherent).2 h.arranged.arranged_eq.symm

theorem equals_of_perm {es fs : List (Entry Object)} (h : (hash es).Coherent functions)
    (hp : fs.Perm es) : (hash fs).Coherent functions ∧ (hash fs).equals (hash es) = true := by
  obtain ⟨⟨-, htable⟩, hins⟩ := every_hash.1 h
  have htable := htable es rfl
  have hfs : (hash fs).Coherent functions := by
    refine every_hash.2 ⟨⟨by simp, fun gs hgs => ?_⟩, fun e he => hins e (hp.mem_iff.1 he)⟩
    exact hash.inj hgs ▸ htable.perm hp
  refine ⟨hfs, (equals_iff _ _ hfs h).2 (congrArg hash (arrangedEntries_eq_iff.2 fun k => ?_))⟩
  rw [htable.find?_perm hp]

theorem equals_eq_same {a b : Object} (ha : a.Ordered functions) (hb : b.Ordered functions) :
    a.equals b = a.same b := by
  rw [Bool.eq_iff_iff, equals_iff a b ha.coherent hb.coherent, ha.arranged_eq, hb.arranged_eq,
    same_iff]

theorem ordered_ofPairs {kvs : List (Object × Object)}
    (h : ∀ kv ∈ kvs, kv.1.Ordered functions ∧ kv.2.Ordered functions) :
    (ofPairs kvs).Ordered functions := by
  obtain ⟨es, hes, hfiled⟩ := ofPairs_filed kvs
  rw [hes]
  refine every_hash.2 ⟨⟨by simp, fun fs hfs => ?_⟩, fun e he => h _ (hfiled.listed e he)⟩
  exact hash.inj hfs ▸ hfiled.filed

end Object

end Equals

end Treewalk
