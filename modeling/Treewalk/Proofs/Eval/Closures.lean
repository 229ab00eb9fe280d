import Treewalk.Eval.Evaluate
import Treewalk.Proofs.Eval.Parts
import Treewalk.Value.Flat

/-!
# Objects with other functions

An object whose functions are changed, at any depth. Built-in functions and operators do not look
into functions, so they do the same to the changed objects.
-/

namespace Treewalk

/-! ## Changing functions -/

mutual

/-- Changes all functions inside an object. -/
def Object.mapClosures (h : Closure → Closure) : Object → Object
  | .integer n => .integer n
  | .boolean b => .boolean b
  | .string s => .string s
  | .null => .null
  | .array elements => .array (mapClosuresAll h elements)
  | .hash entries => .hash (mapClosuresEntries h entries)
  | .function c => .function (h c)
  | .builtin b => .builtin b
  | .error e => .error e
  | .returning value => .returning (value.mapClosures h)

def mapClosuresAll (h : Closure → Closure) : List Object → List Object
  | [] => []
  | o :: os => o.mapClosures h :: mapClosuresAll h os

def mapClosuresEntries (h : Closure → Closure) : List (Entry Object) → List (Entry Object)
  | [] => []
  | ⟨k, key, value⟩ :: es =>
    ⟨k, key.mapClosures h, value.mapClosures h⟩ :: mapClosuresEntries h es

end

def Entry.mapClosures (h : Closure → Closure) (e : Entry Object) : Entry Object :=
  ⟨e.hashKey, e.key.mapClosures h, e.value.mapClosures h⟩

variable (h : Closure → Closure)

theorem mapClosuresAll_eq_map (os : List Object) :
    mapClosuresAll h os = os.map (Object.mapClosures h) := by
  induction os with
  | nil => rfl
  | cons o os ih => rw [mapClosuresAll, ih, List.map_cons]

theorem mapClosuresEntries_eq_map (es : List (Entry Object)) :
    mapClosuresEntries h es = es.map (Entry.mapClosures h) := by
  induction es with
  | nil => rfl
  | cons e es ih =>
    rw [mapClosuresEntries, ih, List.map_cons]
    rfl

namespace Object

theorem mapClosures_array (os : List Object) :
    (array os).mapClosures h = array (os.map (mapClosures h)) :=
  congrArg array (mapClosuresAll_eq_map h os)

theorem mapClosures_hash (es : List (Entry Object)) :
    (hash es).mapClosures h = hash (es.map (Entry.mapClosures h)) :=
  congrArg hash (mapClosuresEntries_eq_map h es)

@[simp] theorem kind_mapClosures (o : Object) : (o.mapClosures h).kind = o.kind := by
  cases o <;> rfl

@[simp] theorem truthy_mapClosures (o : Object) : (o.mapClosures h).truthy = o.truthy := by
  cases o <;> rfl

@[simp] theorem hashKey?_mapClosures (o : Object) : (o.mapClosures h).hashKey? = o.hashKey? := by
  cases o <;> rfl

theorem ofExcept_map (x : Except RuntimeError Object) :
    ofExcept (x.map (mapClosures h)) = (ofExcept x).mapClosures h := by
  cases x <;> rfl

end Object

mutual

theorem Object.mapClosures_congr {h g : Closure → Closure} : ∀ o : Object,
    (∀ c, .function c ∈ o.parts → h c = g c) → o.mapClosures h = o.mapClosures g
  | .integer _, _ | .boolean _, _ | .string _, _ | .null, _ | .builtin _, _ | .error _, _ => rfl
  | .array os, hc =>
    congrArg Object.array (mapClosuresAll_congr os fun c hm => hc c (.tail _ hm))
  | .hash es, hc =>
    congrArg Object.hash (mapClosuresEntries_congr es fun c hm => hc c (.tail _ hm))
  | .function c, hc => congrArg Object.function (hc c (Object.mem_parts_self _))
  | .returning o, hc =>
    congrArg Object.returning (o.mapClosures_congr fun c hm => hc c (.tail _ hm))

theorem mapClosuresAll_congr {h g : Closure → Closure} : ∀ os : List Object,
    (∀ c, .function c ∈ partsAll os → h c = g c) → mapClosuresAll h os = mapClosuresAll g os
  | [], _ => rfl
  | o :: os, hc => by
    rw [mapClosuresAll, mapClosuresAll,
      o.mapClosures_congr fun c hm => hc c (List.mem_append_left _ hm),
      mapClosuresAll_congr os fun c hm => hc c (List.mem_append_right _ hm)]

theorem mapClosuresEntries_congr {h g : Closure → Closure} : ∀ es : List (Entry Object),
    (∀ c, .function c ∈ partsEntries es → h c = g c) →
      mapClosuresEntries h es = mapClosuresEntries g es
  | [], _ => rfl
  | ⟨_, k, v⟩ :: es, hc => by
    rw [mapClosuresEntries, mapClosuresEntries,
      k.mapClosures_congr fun c hm => hc c (by simp [partsEntries, hm]),
      v.mapClosures_congr fun c hm => hc c (by simp [partsEntries, hm]),
      mapClosuresEntries_congr es fun c hm => hc c (by simp [partsEntries, hm])]

end

mutual

theorem Object.mapClosures_mapClosures (g : Closure → Closure) : ∀ o : Object,
    (o.mapClosures h).mapClosures g = o.mapClosures (g ∘ h)
  | .integer _ | .boolean _ | .string _ | .null | .builtin _ | .error _ | .function _ => rfl
  | .array os => congrArg Object.array (mapClosuresAll_mapClosuresAll g os)
  | .hash es => congrArg Object.hash (mapClosuresEntries_mapClosuresEntries g es)
  | .returning o => congrArg Object.returning (o.mapClosures_mapClosures g)

theorem mapClosuresAll_mapClosuresAll (g : Closure → Closure) : ∀ os : List Object,
    mapClosuresAll g (mapClosuresAll h os) = mapClosuresAll (g ∘ h) os
  | [] => rfl
  | o :: os => by
    simp [mapClosuresAll, o.mapClosures_mapClosures g, mapClosuresAll_mapClosuresAll g os]

theorem mapClosuresEntries_mapClosuresEntries (g : Closure → Closure) :
    ∀ es : List (Entry Object),
    mapClosuresEntries g (mapClosuresEntries h es) = mapClosuresEntries (g ∘ h) es
  | [] => rfl
  | ⟨_, k, v⟩ :: es => by
    simp [mapClosuresEntries, k.mapClosures_mapClosures g, v.mapClosures_mapClosures g,
      mapClosuresEntries_mapClosuresEntries g es]

end

mutual

theorem Object.mapClosures_id : ∀ o : Object, o.mapClosures id = o
  | .integer _ | .boolean _ | .string _ | .null | .builtin _ | .error _ | .function _ => rfl
  | .array os => congrArg Object.array (mapClosuresAll_id os)
  | .hash es => congrArg Object.hash (mapClosuresEntries_id es)
  | .returning o => congrArg Object.returning o.mapClosures_id

theorem mapClosuresAll_id : ∀ os : List Object, mapClosuresAll id os = os
  | [] => rfl
  | o :: os => by rw [mapClosuresAll, o.mapClosures_id, mapClosuresAll_id os]

theorem mapClosuresEntries_id : ∀ es : List (Entry Object), mapClosuresEntries id es = es
  | [] => rfl
  | ⟨_, k, v⟩ :: es => by
    rw [mapClosuresEntries, k.mapClosures_id, v.mapClosures_id, mapClosuresEntries_id es]

end

theorem Object.mapClosures_eq_self {h : Closure → Closure} (o : Object)
    (hc : ∀ c, .function c ∈ o.parts → h c = c) : o.mapClosures h = o :=
  (o.mapClosures_congr hc).trans o.mapClosures_id

/-! ## What is seen of an object -/

section Views

variable {h}

mutual

theorem Object.display_mapClosures (hd : ∀ c, (h c).display = c.display) :
    ∀ o : Object, (o.mapClosures h).display = o.display
  | .integer _ | .boolean _ | .string _ | .null | .builtin _ | .error _ => rfl
  | .array os => by
    rw [Object.mapClosures, Object.display, displayAll_mapClosuresAll hd os, Object.display]
  | .hash es => by
    rw [Object.mapClosures, Object.display, displayEntries_mapClosuresEntries hd es,
      Object.display]
  | .function c => hd c
  | .returning o => Object.display_mapClosures hd o

theorem displayAll_mapClosuresAll (hd : ∀ c, (h c).display = c.display) :
    ∀ os : List Object, displayAll (mapClosuresAll h os) = displayAll os
  | [] => rfl
  | o :: os => by
    simp [mapClosuresAll, displayAll, Object.display_mapClosures hd o,
      displayAll_mapClosuresAll hd os]

theorem displayEntries_mapClosuresEntries (hd : ∀ c, (h c).display = c.display) :
    ∀ es : List (Entry Object), displayEntries (mapClosuresEntries h es) = displayEntries es
  | [] => rfl
  | ⟨_, k, v⟩ :: es => by
    simp [mapClosuresEntries, displayEntries, Object.display_mapClosures hd k,
      Object.display_mapClosures hd v, displayEntries_mapClosuresEntries hd es]

end

mutual

theorem Object.flat_mapClosures
    (hf : ∀ c, (Object.function (h c)).flat = (Object.function c).flat) :
    ∀ o : Object, (o.mapClosures h).flat = o.flat
  | .integer _ | .boolean _ | .string _ | .null | .builtin _ | .error _ => rfl
  | .array os => by
    rw [Object.mapClosures, Object.flat, flatAll_mapClosuresAll hf os, mapClosuresAll_eq_map,
      List.length_map, Object.flat]
  | .hash es => by
    rw [Object.mapClosures, Object.flat, flatEntries_mapClosuresEntries hf es,
      mapClosuresEntries_eq_map, List.length_map, Object.flat]
  | .function c => hf c
  | .returning o => by simp [Object.mapClosures, Object.flat, Object.flat_mapClosures hf o]

theorem flatAll_mapClosuresAll
    (hf : ∀ c, (Object.function (h c)).flat = (Object.function c).flat) :
    ∀ os : List Object, flatAll (mapClosuresAll h os) = flatAll os
  | [] => rfl
  | o :: os => by
    simp [mapClosuresAll, flatAll, Object.flat_mapClosures hf o, flatAll_mapClosuresAll hf os]

theorem flatEntries_mapClosuresEntries
    (hf : ∀ c, (Object.function (h c)).flat = (Object.function c).flat) :
    ∀ es : List (Entry Object), flatEntries (mapClosuresEntries h es) = flatEntries es
  | [] => rfl
  | ⟨_, k, v⟩ :: es => by
    simp [mapClosuresEntries, flatEntries, Object.flat_mapClosures hf k,
      Object.flat_mapClosures hf v, flatEntries_mapClosuresEntries hf es]

end

/-- The objects look the same, displayed or taken apart. -/
structure Object.LooksLike (o' o : Object) : Prop where
  flat : o'.flat = o.flat
  display : o'.display = o.display

theorem Object.looksLike_mapClosures
    (hp : ∀ c, (h c).parameters.map (·.literal) = c.parameters.map (·.literal))
    (hb : ∀ c, (h c).body.render = c.body.render) (o : Object) : (o.mapClosures h).LooksLike o where
  flat := Object.flat_mapClosures (fun c => by rw [Object.flat, Object.flat, hp, hb]) o
  display :=
    Object.display_mapClosures (fun c => by rw [Closure.display, Closure.display, hp, hb]) o

end Views

/-! ## Entries -/

theorem Entry.insert_mapClosures (new : Entry Object) (es : List (Entry Object)) :
    Entry.insert (new.mapClosures h) (es.map (Entry.mapClosures h)) =
      (Entry.insert new es).map (Entry.mapClosures h) := by
  induction es with
  | nil => rfl
  | cons e es ih =>
    rw [List.map_cons, Entry.insert, Entry.insert]
    show (if e.hashKey = new.hashKey then _
      else if new.hashKey.precedes e.hashKey then _ else _) = _
    split
    · rfl
    split
    · rfl
    · rw [List.map_cons, ← ih]

theorem Entry.find?_mapClosures (k : HashKey) (es : List (Entry Object)) :
    Entry.find? k (es.map (Entry.mapClosures h)) =
      (Entry.find? k es).map (Entry.mapClosures h) := by
  unfold Entry.find?
  rw [List.find?_map]
  rfl

/-! ## Operators -/

theorem PrefixOp.apply_mapClosures (op : PrefixOp) (o : Object) :
    op.apply (o.mapClosures h) = (op.apply o).map (Object.mapClosures h) := by
  cases op <;> cases o <;> rfl

namespace InfixOp

theorem onIntegers_mapClosures (op : InfixOp) (a b : Int64) :
    (op.onIntegers a b).map (Object.mapClosures h) = op.onIntegers a b := by
  cases op
  case div =>
    unfold onIntegers
    dsimp only
    split <;> rfl
  all_goals rfl

theorem comparable_mapClosures (o : Object) : comparable (o.mapClosures h) = comparable o := by
  cases o <;> rfl

/-- Functions are not comparable, so what is compared does not change. -/
theorem mapClosures_of_comparable {o : Object} (ho : comparable o = true) :
    o.mapClosures h = o := by
  cases o <;> first | rfl | cases ho

theorem onOthers_mapClosures (op : InfixOp) (l r : Object) :
    op.onOthers (l.mapClosures h) (r.mapClosures h) =
      (op.onOthers l r).map (Object.mapClosures h) := by
  unfold onOthers
  simp only [comparable_mapClosures, Object.kind_mapClosures]
  split
  · rename_i hc
    rw [mapClosures_of_comparable h hc.2.1, mapClosures_of_comparable h hc.2.2]
    rfl
  split
  · rename_i hc
    rw [mapClosures_of_comparable h hc.2.1, mapClosures_of_comparable h hc.2.2]
    rfl
  split <;> rfl

theorem apply_mapClosures (op : InfixOp) (l r : Object) :
    op.apply (l.mapClosures h) (r.mapClosures h) =
      (op.apply l r).map (Object.mapClosures h) := by
  have hothers := onOthers_mapClosures h op l r
  cases l with
  | integer a =>
    cases r with
    | integer b => exact (onIntegers_mapClosures h op a b).symm
    | _ => exact hothers
  | string s =>
    cases r with
    | string t => cases op <;> rfl
    | _ => exact hothers
  | _ => exact hothers

end InfixOp

theorem elementAt_mapClosures (xs : List Object) (i : Int64) :
    elementAt (xs.map (Object.mapClosures h)) i = (elementAt xs i).mapClosures h := by
  unfold elementAt
  split
  · rfl
  · rw [List.getElem?_map]
    cases xs[i.toInt.toNat]? <;> rfl

theorem Object.index_mapClosures (b i : Object) :
    (b.mapClosures h).index (i.mapClosures h) = (b.index i).map (Object.mapClosures h) := by
  cases b with
  | array xs =>
    cases i with
    | integer n =>
      rw [mapClosures_array]
      exact congrArg Except.ok (elementAt_mapClosures h xs n)
    | _ => rfl
  | hash es =>
    rw [mapClosures_hash, Object.index, Object.index, Object.hashKey?_mapClosures,
      Object.kind_mapClosures]
    cases i.hashKey? with
    | none => rfl
    | some k =>
      dsimp only
      rw [Entry.find?_mapClosures]
      cases Entry.find? k es <;> rfl
  | _ => rfl

/-! ## Built-in functions -/

namespace Builtin

theorem length_mapClosures (o : Object) :
    length (o.mapClosures h) = (length o).map (Object.mapClosures h) := by
  cases o with
  | array xs =>
    rw [Object.mapClosures_array, length, List.length_map]
    rfl
  | _ => rfl

theorem elements_mapClosures (b : Builtin) (o : Object) :
    elements b (o.mapClosures h) = (elements b o).map (List.map (Object.mapClosures h)) := by
  cases o with
  | array xs =>
    rw [Object.mapClosures_array]
    rfl
  | _ => rfl

theorem elements_map_mapClosures {f g : List Object → Object} (b : Builtin) (o : Object)
    (hf : ∀ xs, g (xs.map (Object.mapClosures h)) = (f xs).mapClosures h) :
    (elements b (o.mapClosures h)).map g = ((elements b o).map f).map (Object.mapClosures h) := by
  rw [elements_mapClosures]
  cases elements b o with
  | error e => rfl
  | ok xs => exact congrArg Except.ok (hf xs)

theorem result_mapClosures (b : Builtin) (arguments : List Object) :
    b.result (arguments.map (Object.mapClosures h)) =
      (b.result arguments).map (Object.mapClosures h) := by
  rcases arguments with _ | ⟨o, _ | ⟨x, _ | ⟨y, rest⟩⟩⟩
  · cases b <;> rfl
  · cases b with
    | len => exact length_mapClosures h o
    | first =>
      refine elements_map_mapClosures h first o fun xs => ?_
      cases xs <;> rfl
    | last =>
      refine elements_map_mapClosures h last o fun xs => ?_
      rw [List.getLast?_map]
      cases xs.getLast? <;> rfl
    | rest =>
      refine elements_map_mapClosures h Builtin.rest o fun xs => ?_
      cases xs with
      | nil => rfl
      | cons x xs => exact congrArg Object.array (mapClosuresAll_eq_map h xs).symm
    | push | puts => rfl
  · cases b with
    | push =>
      refine elements_map_mapClosures h (f := fun xs => .array (xs ++ [x])) push o fun xs => ?_
      rw [Object.mapClosures_array, List.map_append]
      rfl
    | _ => rfl
  · cases b <;> rfl

theorem printed_mapClosures (hd : ∀ c, (h c).display = c.display) (b : Builtin)
    (arguments : List Object) :
    b.printed (arguments.map (Object.mapClosures h)) = b.printed arguments := by
  cases b with
  | puts =>
    refine congrArg String.join ?_
    rw [List.map_map]
    refine List.map_congr_left fun o _ => ?_
    rw [Function.comp_apply, Object.display_mapClosures hd]
  | _ => rfl

end Builtin

end Treewalk
