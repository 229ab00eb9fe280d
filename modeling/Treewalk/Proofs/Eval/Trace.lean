import Treewalk.Eval.Evaluate
import Treewalk.Proofs.Records
import Treewalk.Proofs.Runs

/-!
# Evaluation with a record of what it ran

The same evaluation, which also keeps what each expression, statement, block and call gave, the
machine at that moment and what ran inside. Without the record it is evaluation itself.
-/

namespace Treewalk

/-- What evaluation is asked to do. -/
inductive Task
  | expression (s : ScopeId) (e : Expr)
  | statement (s : ScopeId) (st : Statement)
  | block (s : ScopeId) (b : Block)
  | call (f : Object) (arguments : List Object)

def Task.isCall : Task → Bool
  | call _ _ => true
  | _ => false

/-- A task that is done, with the tasks that it ran, in order. -/
inductive Trace
  | done (task : Task) (reply : Object) (stop : Machine) (inner : List Trace)

namespace Trace

def task : Trace → Task
  | done task _ _ _ => task

/-- What the task gave. Signals are objects here. -/
def reply : Trace → Object
  | done _ reply _ _ => reply

def stop : Trace → Machine
  | done _ _ stop _ => stop

def inner : Trace → List Trace
  | done _ _ _ inner => inner

end Trace

def Signal.object : Signal → Object
  | error e => .error e
  | returning value => .returning value

/-- Runs that keep the tasks done so far. -/
abbrev Traced := Run (Machine × List Trace) Signal

namespace Traced

variable {α β : Type}

def lift (x : Eval α) : Traced α := fun (m, ts) => (x m).map fun (r, m') => (r, m', ts)

def replyOf : Except Signal Object → Object
  | .ok o => o
  | .error s => s.object

/-- Runs a task and records it, with what it ran inside. -/
def record (task : Task) (x : Traced Object) : Traced Object := fun (m, ts) =>
  (x (m, [])).map fun (r, m', inner) => (r, m', ts ++ [.done task (replyOf r) m' inner])

def concluded (x : Traced Object) : Traced Object := fun u =>
  (x u).map fun
    | (.ok o, u') => (.ok o, u')
    | (.error s, u') => (.ok s.taken, u')

def block (statement : Statement → Traced Object) (s : ScopeId) (b : Block) : Traced Object :=
  record (.block s b) (Eval.sequence statement .null b.statements)

mutual

def expression : Nat → ScopeId → Expr → Traced Object
  | 0, _, _ => Run.exhausted
  | n + 1, s, e => record (.expression s e) <|
    match e with
    | .identifier name => lift (Eval.named s name.literal)
    | .integer _ value => return .integer value
    | .boolean _ value => return .boolean value
    | .string token => return .string token.literal
    | .prefixed _ op operand => do Eval.settleExcept (op.apply (← expression n s operand))
    | .binary _ op left right => do
      let l ← expression n s left
      let r ← expression n s right
      Eval.settleExcept (op.apply l r)
    | .conditional _ condition consequence alternative => do
      if (← expression n s condition).truthy then block (statement n s) s consequence
      else
        match alternative with
        | some b => block (statement n s) s b
        | none => return .null
    | .function _ parameters body => lift (Eval.closure s parameters body)
    | .call _ callee arguments => do
      let f ← expression n s callee
      let xs ← Eval.all (expression n s) arguments
      Eval.settle (← apply n f xs)
    | .array _ elements => return .array (← Eval.all (expression n s) elements)
    | .hash _ ps => return .hash (← Eval.pairs (expression n s) [] ps)
    | .index _ base position => do
      let b ← expression n s base
      let p ← expression n s position
      Eval.settleExcept (b.index p)

def statement : Nat → ScopeId → Statement → Traced Object
  | 0, _, _ => Run.exhausted
  | n + 1, s, st => record (.statement s st) <|
    match st with
    | .binding _ name value => do
      let o ← expression n s value
      lift (Eval.bind s name.literal o)
      return .null
    | .returning _ none => Run.exit (.returning .null)
    | .returning _ (some value) => do Run.exit (.returning (← expression n s value))
    | .expression _ value => expression n s value

def apply : Nat → Object → List Object → Traced Object
  | 0, _, _ => Run.exhausted
  | n + 1, f, arguments => record (.call f arguments) <|
    match f with
    | .function c => do
      if arguments.length = c.parameters.length then
        let s ← lift (Eval.enter c arguments)
        concluded (block (statement n s) s c.body)
      else return .error (.wrongArgumentCount c.parameters.length arguments.length)
    | .builtin b => do
      lift (Eval.print (b.printed arguments))
      return .ofExcept (b.result arguments)
    | o => return .error (.notAFunction o.kind)

end

def program (depth : Nat) (s : ScopeId) (p : Program) (m : Machine) :
    Option (Object × Machine × List Trace) :=
  match concluded (Eval.sequence (statement depth s) .null p) (m, []) with
  | some (r, m', ts) => some (replyOf r, m', ts)
  | none => none

/-! ## The record changes nothing -/

/-- Without the record the run is `y`. -/
def Erases (x : Traced α) (y : Eval α) : Prop :=
  ∀ m ts, (x (m, ts)).map (fun (r, m', _) => (r, m')) = y m

theorem Erases.lift (y : Eval α) : Erases (lift y) y := Run.Erases.beside y

theorem Erases.pure (a : α) : Erases (Pure.pure a) (Pure.pure a) := Run.Erases.pure a

theorem Erases.exit (e : Signal) : Erases (Run.exit e : Traced α) (Run.exit e) := fun _ _ => rfl

theorem Erases.exhausted : Erases (Run.exhausted : Traced α) Run.exhausted := Run.Erases.exhausted

theorem Erases.bind {x : Traced α} {y : Eval α} {f : α → Traced β} {g : α → Eval β}
    (hx : Erases x y) (hf : ∀ a, Erases (f a) (g a)) : Erases (x >>= f) (y >>= g) :=
  Run.Erases.bind hx hf

theorem Erases.record {x : Traced Object} {y : Eval Object} (hx : Erases x y) (task : Task) :
    Erases (record task x) y := by
  intro m ts
  rw [← hx m []]
  simp only [Traced.record, Option.map_map]
  rfl

theorem Erases.concluded {x : Traced Object} {y : Eval Object} (hx : Erases x y) :
    Erases (concluded x) (Eval.concluded y) := by
  intro m ts
  simp only [Traced.concluded, Eval.concluded, Eval.outcome, ← hx m ts]
  rcases x (m, ts) with _ | ⟨e | a, m₁, ts₁⟩ <;> rfl

theorem erases_settle (o : Object) : Erases (Eval.settle o) (Eval.settle o) := by
  unfold Eval.settle
  split
  · exact .exit _
  · exact .exit _
  · exact .pure _

theorem erases_settleExcept (r : Except RuntimeError Object) :
    Erases (Eval.settleExcept r) (Eval.settleExcept r) := by
  unfold Eval.settleExcept
  split
  · exact erases_settle _
  · exact .exit _

theorem erases_all {eval : Expr → Traced Object} {eval' : Expr → Eval Object}
    (h : ∀ e, Erases (eval e) (eval' e)) (es : List Expr) :
    Erases (Eval.all eval es) (Eval.all eval' es) := by
  induction es with
  | nil => exact .pure _
  | cons e es ih =>
    rw [Eval.all, Eval.all]
    exact .bind (h e) fun o => .bind ih fun xs => .pure _

theorem erases_pairs {eval : Expr → Traced Object} {eval' : Expr → Eval Object}
    (h : ∀ e, Erases (eval e) (eval' e)) (ps : List (Expr × Expr))
    (entries : List (Entry Object)) :
    Erases (Eval.pairs eval entries ps) (Eval.pairs eval' entries ps) := by
  induction ps generalizing entries with
  | nil => exact .pure _
  | cons p ps ih =>
    refine .bind (h p.1) fun key => ?_
    cases key.hashKey? with
    | none => exact .exit _
    | some k => exact .bind (h p.2) fun _ => ih _

theorem erases_sequence {eval : Statement → Traced Object} {eval' : Statement → Eval Object}
    (h : ∀ st, Erases (eval st) (eval' st)) (ss : List Statement) (result : Object) :
    Erases (Eval.sequence eval result ss) (Eval.sequence eval' result ss) := by
  induction ss generalizing result with
  | nil => exact .pure _
  | cons st ss ih =>
    rw [Eval.sequence, Eval.sequence]
    exact .bind (h st) fun o => ih o

theorem erases_block {eval : Statement → Traced Object} {eval' : Statement → Eval Object}
    (h : ∀ st, Erases (eval st) (eval' st)) (s : ScopeId) (b : Block) :
    Erases (block eval s b) (Eval.sequence eval' .null b.statements) :=
  (erases_sequence h b.statements .null).record _

structure Faithful (n : Nat) : Prop where
  expression : ∀ s e, Erases (expression n s e) (Eval.expression n s e)
  statement : ∀ s st, Erases (statement n s st) (Eval.statement n s st)
  apply : ∀ f arguments, Erases (apply n f arguments) (Eval.apply n f arguments)

theorem faithful_expression {n : Nat} (ih : Faithful n) (s : ScopeId) (e : Expr) :
    Erases (expression (n + 1) s e) (Eval.expression (n + 1) s e) := by
  have part := ih.expression s
  have branch (b : Block) := erases_block (ih.statement s) s b
  refine Erases.record ?_ (.expression s e)
  cases e with
  | identifier name => exact .lift _
  | integer token value => exact .pure _
  | boolean token value => exact .pure _
  | string token => exact .pure _
  | prefixed token op operand => exact .bind (part operand) fun o => erases_settleExcept _
  | binary token op left right =>
    refine .bind (part left) fun l => .bind (part right) fun r => ?_
    exact erases_settleExcept (op.apply l r)
  | conditional token condition consequence alternative =>
    refine .bind (part condition) fun o => ?_
    split
    · exact branch consequence
    · cases alternative with
      | none => exact .pure _
      | some b => exact branch b
  | function token parameters body => exact .lift _
  | call token callee arguments =>
    refine .bind (part callee) fun f => .bind (erases_all part arguments) fun xs => ?_
    exact .bind (ih.apply f xs) fun o => erases_settle o
  | array token elements => exact .bind (erases_all part elements) fun xs => .pure _
  | hash token ps => exact .bind (erases_pairs part ps []) fun es => .pure _
  | index token base position =>
    refine .bind (part base) fun b => .bind (part position) fun i => ?_
    exact erases_settleExcept (b.index i)

theorem faithful_statement {n : Nat} (ih : Faithful n) (s : ScopeId) (st : Statement) :
    Erases (statement (n + 1) s st) (Eval.statement (n + 1) s st) := by
  have hvalue := ih.expression s
  refine Erases.record ?_ (.statement s st)
  cases st with
  | binding token name value =>
    refine .bind (hvalue value) fun o => .bind (.lift _) fun _ => ?_
    exact .pure _
  | returning token value =>
    cases value with
    | none => exact .exit _
    | some value => exact .bind (hvalue value) fun o => .exit _
  | expression token value => exact hvalue value

theorem faithful_apply {n : Nat} (ih : Faithful n) (f : Object) (arguments : List Object) :
    Erases (apply (n + 1) f arguments) (Eval.apply (n + 1) f arguments) := by
  refine Erases.record ?_ (.call f arguments)
  cases f with
  | function c =>
    rw [Eval.apply]
    dsimp only
    split
    · have hbody (s : ScopeId) := (erases_block (ih.statement s) s c.body).concluded
      exact .bind (.lift _) hbody
    · exact .pure _
  | builtin b =>
    rw [Eval.apply]
    exact .bind (.lift _) fun _ => .pure _
  | _ => exact .pure _

theorem faithful (n : Nat) : Faithful n := by
  induction n with
  | zero => exact ⟨fun _ _ => .exhausted, fun _ _ => .exhausted, fun _ _ => .exhausted⟩
  | succ n ih => exact ⟨faithful_expression ih, faithful_statement ih, faithful_apply ih⟩

/-- A program runs with its record just as it runs without it. -/
theorem program_erases (n : Nat) (s : ScopeId) (p : Program) (m : Machine) :
    (program n s p m).map (fun (o, m', _) => (o, m')) = Eval.program n s p m := by
  have h := erases_sequence ((faithful n).statement s) p .null m []
  unfold Eval.program Eval.outcome program Traced.concluded
  rw [← h]
  rcases Eval.sequence (statement n s) .null p (m, []) with _ | ⟨e | a, m₁, ts₁⟩ <;> rfl

end Traced

end Treewalk
