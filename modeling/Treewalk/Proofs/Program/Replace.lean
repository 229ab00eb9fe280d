import Treewalk.Proofs.Program.Names

/-!
# A parameter under another name

A program in which one function literal has a parameter under another name, with all that is inside
it. Outside of the literal names correspond as they are, and inside of it under the renaming.
-/

namespace Treewalk

/-- The code there is the code here with `G` at one place where `F` was. -/
inductive Replaces (F G : Expr) : Code → Code → Prop
  | here : Replaces F G (.expression F) (.expression G)
  | operand {t op a a'} : Replaces F G (.expression a) (.expression a') →
    Replaces F G (.expression (.prefixed t op a)) (.expression (.prefixed t op a'))
  | left {t op a a' b} : Replaces F G (.expression a) (.expression a') →
    Replaces F G (.expression (.binary t op a b)) (.expression (.binary t op a' b))
  | right {t op a b b'} : Replaces F G (.expression b) (.expression b') →
    Replaces F G (.expression (.binary t op a b)) (.expression (.binary t op a b'))
  | condition {t a a' b c} : Replaces F G (.expression a) (.expression a') →
    Replaces F G (.expression (.conditional t a b c)) (.expression (.conditional t a' b c))
  | consequence {t a u ss ss' c} : Replaces F G (.statements ss) (.statements ss') →
    Replaces F G (.expression (.conditional t a ⟨u, ss⟩ c))
      (.expression (.conditional t a ⟨u, ss'⟩ c))
  | alternative {t a b u ss ss'} : Replaces F G (.statements ss) (.statements ss') →
    Replaces F G (.expression (.conditional t a b (some ⟨u, ss⟩)))
      (.expression (.conditional t a b (some ⟨u, ss'⟩)))
  | body {t ps u ss ss'} : Replaces F G (.statements ss) (.statements ss') →
    Replaces F G (.expression (.function t ps ⟨u, ss⟩)) (.expression (.function t ps ⟨u, ss'⟩))
  | callee {t a a' es} : Replaces F G (.expression a) (.expression a') →
    Replaces F G (.expression (.call t a es)) (.expression (.call t a' es))
  | arguments {t a es es'} : Replaces F G (.expressions es) (.expressions es') →
    Replaces F G (.expression (.call t a es)) (.expression (.call t a es'))
  | elements {t es es'} : Replaces F G (.expressions es) (.expressions es') →
    Replaces F G (.expression (.array t es)) (.expression (.array t es'))
  | entries {t ps ps'} : Replaces F G (.pairs ps) (.pairs ps') →
    Replaces F G (.expression (.hash t ps)) (.expression (.hash t ps'))
  | base {t a a' b} : Replaces F G (.expression a) (.expression a') →
    Replaces F G (.expression (.index t a b)) (.expression (.index t a' b))
  | position {t a b b'} : Replaces F G (.expression b) (.expression b') →
    Replaces F G (.expression (.index t a b)) (.expression (.index t a b'))
  | expression {e e' es} : Replaces F G (.expression e) (.expression e') →
    Replaces F G (.expressions (e :: es)) (.expressions (e' :: es))
  | expressions {e es es'} : Replaces F G (.expressions es) (.expressions es') →
    Replaces F G (.expressions (e :: es)) (.expressions (e :: es'))
  | key {k k' v ps} : Replaces F G (.expression k) (.expression k') →
    Replaces F G (.pairs ((k, v) :: ps)) (.pairs ((k', v) :: ps))
  | value {k v v' ps} : Replaces F G (.expression v) (.expression v') →
    Replaces F G (.pairs ((k, v) :: ps)) (.pairs ((k, v') :: ps))
  | pairs {p ps ps'} : Replaces F G (.pairs ps) (.pairs ps') →
    Replaces F G (.pairs (p :: ps)) (.pairs (p :: ps'))
  | binding {t n e e'} : Replaces F G (.expression e) (.expression e') →
    Replaces F G (.statement (.binding t n e)) (.statement (.binding t n e'))
  | returning {t e e'} : Replaces F G (.expression e) (.expression e') →
    Replaces F G (.statement (.returning t (some e))) (.statement (.returning t (some e')))
  | evaluated {t e e'} : Replaces F G (.expression e) (.expression e') →
    Replaces F G (.statement (.expression t e)) (.statement (.expression t e'))
  | statement {s s' ss} : Replaces F G (.statement s) (.statement s') →
    Replaces F G (.statements (s :: ss)) (.statements (s' :: ss))
  | statements {s ss ss'} : Replaces F G (.statements ss) (.statements ss') →
    Replaces F G (.statements (s :: ss)) (.statements (s :: ss'))

/-- The name `y` for the name `x`, and all other names as they are. -/
def instead (x y name : String) : String := if name = x then y else name

theorem instead_back {x y name : String} (h : name ≠ y) :
    instead y x (instead x y name) = name := by
  by_cases heq : name = x
  · rw [instead, instead, if_pos heq, if_pos rfl, heq]
  · rw [instead, instead, if_neg heq, if_neg h]

namespace Naming

/-- Inside, `y` stands for `x`. Nowhere does `y` stand for itself, as it is new. -/
def replacing (x y : String) : Naming where
  Mode := Bool
  names inside a a' := a ≠ y ∧ a' = if inside then instead x y a else a
  one_to_one {inside a a' b b'} h h' := by
    obtain ⟨ha, rfl⟩ := h
    obtain ⟨hb, rfl⟩ := h'
    refine ⟨fun h => by rw [h], fun h => ?_⟩
    cases inside with
    | false => exact h
    | true =>
      rw [← instead_back ha, ← instead_back hb]
      exact congrArg (instead y x) h

variable {x y : String}

theorem replacing_back {inside : Bool} {a a' : String} (h : (replacing x y).names inside a a') :
    instead y x a' = a := by
  obtain ⟨ha, rfl⟩ := h
  cases inside with
  | false => exact if_neg ha
  | true => exact instead_back ha

theorem replacing_self {c : Code} (hy : y ∉ c.names) : (replacing x y).Corresponds false c c :=
  corresponds_self c fun _ hn => ⟨fun heq => hy (heq ▸ hn), rfl⟩

/-- A function literal takes its parameter `x` anew, so its inside may call it `y`. -/
theorem replacing_function {t : Token} {ps : List Token} {b : Block}
    (hx : x ∈ ps.map (·.literal)) (hy : y ∉ (Expr.function t ps b).names) :
    (replacing x y).Corresponds false (.expression (.function t ps b))
      (.expression ((Expr.function t ps b).rename (instead x y))) := by
  obtain ⟨u, ss⟩ := b
  have hinside : ∀ n ∈ (Expr.function t ps ⟨u, ss⟩).names,
      (replacing x y).names true n (instead x y n) := fun n hn => ⟨fun heq => hy (heq ▸ hn), rfl⟩
  have hopens : (replacing x y).Opens false true ps := by
    rintro a a' ⟨ha, rfl⟩
    by_cases heq : a = x
    · exact .inr (heq ▸ hx)
    · exact .inl ⟨ha, if_neg heq⟩
  exact .function hopens (names_rename fun n hn => hinside n (List.mem_append_left _ hn))
    (corresponds_rename (.statements ss) fun n hn => hinside n (List.mem_append_right _ hn))

theorem replacing_corresponds {F G : Expr}
    (hF : y ∉ F.names → (replacing x y).Corresponds false (.expression F) (.expression G))
    {c c' : Code} (h : Replaces F G c c') (hy : y ∉ c.names) :
    (replacing x y).Corresponds false c c' := by
  have same {c : Code} := replacing_self (x := x) (y := y) (c := c)
  -- one step into the code at a time: what stands beside it stays as it is
  induction h
  all_goals simp only [Code.names, Expr.names, Statement.names, Block.names, namesAll, namesPairs,
    namesElse, namesValue, namesStatements, List.mem_append, List.mem_cons, not_or] at hy
  case here => exact hF hy
  case operand ih => exact .prefixed (ih hy)
  case left ih => exact .binary (ih hy.1) (same hy.2)
  case right ih => exact .binary (same hy.1) (ih hy.2)
  case condition b c _ ih =>
    obtain ⟨⟨ha, hb⟩, hc⟩ := hy
    obtain ⟨u, ss⟩ := b
    cases c with
    | none => exact .conditional (ih ha) (same hb)
    | some c =>
      obtain ⟨v, rs⟩ := c
      exact .alternative (ih ha) (same hb) (same hc)
  case consequence c _ ih =>
    obtain ⟨⟨ha, hb⟩, hc⟩ := hy
    cases c with
    | none => exact .conditional (same ha) (ih hb)
    | some c =>
      obtain ⟨v, rs⟩ := c
      exact .alternative (same ha) (ih hb) (same hc)
  case alternative b _ _ _ _ ih =>
    obtain ⟨⟨ha, hb⟩, hc⟩ := hy
    obtain ⟨v, rs⟩ := b
    exact .alternative (same ha) (same hb) (ih hc)
  case body ps _ _ _ _ ih =>
    have hps : ∀ p ∈ ps, (replacing x y).Name false p p := fun p hp =>
      ⟨⟨fun heq => hy.1 (heq ▸ List.mem_map_of_mem hp), rfl⟩, rfl, rfl⟩
    exact .function (opens_self _ _) (List.forall₂_same.2 hps) (ih hy.2)
  case callee ih => exact .call (ih hy.1) (same hy.2)
  case arguments ih => exact .call (same hy.1) (ih hy.2)
  case elements ih => exact .array (ih hy)
  case entries ih => exact .hash (ih hy)
  case base ih => exact .index (ih hy.1) (same hy.2)
  case position ih => exact .index (same hy.1) (ih hy.2)
  case expression ih => exact .expressions (ih hy.1) (same hy.2)
  case expressions ih => exact .expressions (same hy.1) (ih hy.2)
  case key ih => exact .pairs (ih hy.1.1) (same hy.1.2) (same hy.2)
  case value ih => exact .pairs (same hy.1.1) (ih hy.1.2) (same hy.2)
  case pairs ih => exact .pairs (same hy.1.1) (same hy.1.2) (ih hy.2)
  case binding n _ _ _ ih => exact .binding ⟨⟨Ne.symm hy.1, rfl⟩, rfl, rfl⟩ (ih hy.2)
  case returning ih => exact .returning (ih hy)
  case evaluated t _ _ _ ih =>
    refine .evaluated ⟨fun ht => ⟨⟨fun heq => hy.1 ?_, rfl⟩, rfl, rfl⟩, fun _ => rfl⟩ (ih hy.2)
    simp [Token.leadNames, ht, heq]
  case statement ih => exact .statements (ih hy.1) (same hy.2)
  case statements ih => exact .statements (same hy.1) (ih hy.2)

end Naming

end Treewalk
