import Treewalk.Proofs.Eval.Abreast
import Treewalk.Proofs.Host.Scripts
import Treewalk.Proofs.Program.Replace

/-!
# Scoping is lexical

What a parameter is called matters to nothing but the code of its function: under a name that is
new in the program, it runs as before.
-/

namespace Treewalk

/-- The function with other names in its parameters and in its body. -/
def Closure.rename (f : String → String) (c : Closure) : Closure :=
  { c with parameters := c.parameters.map (Token.rename f), body := c.body.rename f }

/-- No function is in the object. -/
def Object.FunctionFree (o : Object) : Prop := ∀ c, .function c ∉ o.parts

/-- The same machine on both sides, and `y` for `x` in some scopes there. -/
def Dictionary.replacing (x y : String) : Dictionary where
  toNaming := .replacing x y
  scope := id
  scope_injective := id
  identity := id
  outer := []
  outer_apart _ := List.not_mem_nil

section

variable {x y : String}

theorem links_replacing : World.Links (D := .replacing x y) ⟨[false], []⟩ .fresh .fresh where
  modes := rfl
  closures := rfl
  nextScope _ := rfl
  nextFunction _ := rfl
  bindings j _ hj a a' ha := by
    cases j with
    | zero => exact .none
    | succ j => cases hj
  placed j _ hj := by
    cases j with
    | zero =>
      obtain rfl := Option.some.inj hj
      exact .first rfl rfl fun a a' ha => ⟨ha.2, fun i hi => absurd hi List.not_mem_nil⟩
    | succ j => cases hj

variable {W : World (.replacing x y)} {o : Object}

theorem object_rename (h : W.Holds o) :
    (W.object o).mapClosures (Closure.rename (instead y x)) = o := by
  rw [World.object, Object.mapClosures_mapClosures]
  refine o.mapClosures_eq_self fun c hc => ?_
  obtain ⟨inside, c', -, hc', hrenames⟩ := h _ hc c rfl
  obtain ⟨hparameters, hbody⟩ := hrenames.back (f := instead y x) fun _ _ _ => Naming.replacing_back
  have hidentity : c'.identity = c.identity := hrenames.identity
  have hscope : c'.scope = c.scope := hrenames.scope
  rw [Function.comp_apply, World.closure_eq hc', Closure.rename, hparameters, hbody, hidentity,
    hscope]

theorem object_functionFree (h : o.FunctionFree) : W.object o = o :=
  o.mapClosures_eq_self fun c hc => absurd hc (h c)

end

/-- The end `u` of a program, with the record of its run, and the end `u'` of the program in which
`x` is called `y`. -/
structure Renamed (x y : String) (u : Object × Machine × List Trace) (u' : Object × Machine) :
    Prop where
  result : Run.EndsAlike (· = ·)
    (fun o o' => o'.mapClosures (Closure.rename (instead y x)) = o) (verdict u.1) (verdict u'.1)
  output : Trace.Shown Object.FunctionFree u.2.2 → u'.2.output = u.2.1.output

/-- Scoping is lexical: when a parameter of one function literal gets a new name, wherever it is
mentioned inside the literal, the program ends with the same error, or with the same result up to
that name in the code of functions, or as before it does not end. It prints the same if it prints no
function. -/
theorem program_renamed {p p' : Program} {x y : String} {t : Token} {ps : List Token} {b : Block}
    (hx : x ∈ ps.map (·.literal)) (hy : y ∉ p.names)
    (hp : Replaces (.function t ps b) ((Expr.function t ps b).rename (instead x y))
      (.statements p) (.statements p')) (n : Nat) :
    Option.Rel (Renamed x y) (Traced.program n Machine.root p .fresh)
      (Eval.program n Machine.root p' .fresh) := by
  have hshows : Traced.ShownAlike (.replacing x y) Object.FunctionFree :=
    fun W o _ hfree => congrArg Object.display (object_functionFree hfree)
  have hcode : (Naming.replacing x y).Corresponds false (.statements p) (.statements p') :=
    Naming.replacing_corresponds (Naming.replacing_function hx) hp hy
  have hmode : (⟨[false], []⟩ : World (.replacing x y)).modes[Machine.root]? = some false := rfl
  have hruns := Traced.programs_together hshows n links_replacing hmode hcode
  have hscope : (Dictionary.replacing x y).scope Machine.root = Machine.root := rfl
  rw [hscope] at hruns
  generalize Traced.program n Machine.root p .fresh = u, Eval.program n Machine.root p' .fresh = u'
    at hruns
  cases hruns with
  | none => exact .none
  | @some u u' h =>
    obtain ⟨W, -, ht⟩ := h
    refine .some ⟨?_, fun hshown => ?_⟩
    · rw [ht.result.eq]
      exact endsAlike_verdict (object_rename ht.result.holds)
    · exact (ht.output hshown "" rfl).trans (String.empty_append)

/-- The parameter of an adder. There is another `x` beside the literal, which stays as it is. -/
theorem program_renamed_adder :
    let s₁ := "let add = fn(x) \x7b fn(n) \x7b x + n \x7d \x7d; let x = 10; puts(add(2)(x)); add"
    let s₂ := "let add = fn(k) \x7b fn(n) \x7b k + n \x7d \x7d; let x = 10; puts(add(2)(x)); add"
    let name (a : String) : Token := ⟨.ident, a, 1⟩
    let word : Token := ⟨.function, "fn", 1⟩
    let brace : Token := ⟨.leftBrace, "\x7b", 1⟩
    let sum (a : String) : Expr :=
      .binary ⟨.plus, "+", 1⟩ .add (.identifier (name a)) (.identifier (name "n"))
    let inner (a : String) : Expr :=
      .function word [name "n"] ⟨brace, [.expression (name a) (sum a)]⟩
    let body (a : String) : Block := ⟨brace, [.expression word (inner a)]⟩
    let p₁ := (parse s₁).program
    let p₂ := (parse s₂).program
    "k" ∉ p₁.names ∧
      Replaces (.function word [name "x"] (body "x"))
        ((Expr.function word [name "x"] (body "x")).rename (instead "x" "k"))
        (.statements p₁) (.statements p₂) ∧
      (interpret 20 Machine.root s₁ .fresh).map (·.2.output) = some "12\n" ∧
      Option.Rel (Renamed "x" "k") (Traced.program 20 Machine.root p₁ .fresh)
        (Eval.program 20 Machine.root p₂ .fresh) := by
  intro s₁ s₂ name word brace sum inner body p₁ p₂
  let bound (a : String) : Statement :=
    .binding ⟨.letWord, "let", 1⟩ (name "add") (.function word [name a] (body a))
  let applied (callee argument : Expr) : Expr := .call ⟨.leftParen, "(", 1⟩ callee [argument]
  let adding : Expr := applied (applied (.identifier (name "add")) (.integer ⟨.int, "2", 1⟩ 2))
    (.identifier (name "x"))
  let rest : Program :=
    [.binding ⟨.letWord, "let", 1⟩ (name "x") (.integer ⟨.int, "10", 1⟩ 10),
      .expression (name "puts") (applied (.identifier (name "puts")) adding),
      .expression (name "add") (.identifier (name "add"))]
  have h₁ : p₁ = bound "x" :: rest := by decide +kernel
  have h₂ : p₂ = bound "k" :: rest := by decide +kernel
  have hy : "k" ∉ p₁.names := by decide +kernel
  have hp : Replaces (.function word [name "x"] (body "x"))
      ((Expr.function word [name "x"] (body "x")).rename (instead "x" "k"))
      (.statements p₁) (.statements p₂) := by
    rw [h₁, h₂]
    exact .statement (.binding .here)
  have houtput : (interpret 20 Machine.root s₁ .fresh).map (·.2.output) = some "12\n" := by
    decide +kernel
  exact ⟨hy, hp, houtput, program_renamed List.mem_cons_self hy hp 20⟩

end Treewalk
