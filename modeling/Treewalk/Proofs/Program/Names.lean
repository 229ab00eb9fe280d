import Mathlib.Data.List.Forall2
import Treewalk.Program.Basic

/-!
# Programs under other names

The names in code, and what it means that code is the same under other names: the names correspond
one to one, and a function literal may go over to another correspondence for its inside, as long as
its parameters are all that it takes anew.
-/

namespace Treewalk

/-! ## The names in code -/

/-- The name in the token that an expression statement keeps of its expression, if it is one. -/
def Token.leadNames (t : Token) : List String := if t.kind = .ident then [t.literal] else []

mutual

/-- All identifiers in an expression: names in use, names that `let` binds, and parameters. -/
def Expr.names : Expr → List String
  | .identifier name => [name.literal]
  | .integer _ _ | .boolean _ _ | .string _ => []
  | .prefixed _ _ operand => operand.names
  | .binary _ _ left right => left.names ++ right.names
  | .conditional _ condition consequence alternative =>
    condition.names ++ consequence.names ++ namesElse alternative
  | .function _ parameters body => parameters.map (·.literal) ++ body.names
  | .call _ callee arguments => callee.names ++ namesAll arguments
  | .array _ elements => namesAll elements
  | .hash _ pairs => namesPairs pairs
  | .index _ base position => base.names ++ position.names

def namesAll : List Expr → List String
  | [] => []
  | e :: es => e.names ++ namesAll es

def namesPairs : List (Expr × Expr) → List String
  | [] => []
  | (key, value) :: pairs => key.names ++ value.names ++ namesPairs pairs

def namesElse : Option Block → List String
  | none => []
  | some block => block.names

def namesValue : Option Expr → List String
  | none => []
  | some value => value.names

def Statement.names : Statement → List String
  | .binding _ name value => name.literal :: value.names
  | .returning _ value => namesValue value
  | .expression t value => t.leadNames ++ value.names

def namesStatements : List Statement → List String
  | [] => []
  | s :: ss => s.names ++ namesStatements ss

def Block.names : Block → List String
  | ⟨_, statements⟩ => namesStatements statements

end

def Program.names (p : Program) : List String := namesStatements p

/-! ## Renaming -/

def Token.rename (f : String → String) (t : Token) : Token := { t with literal := f t.literal }

def Token.renameLead (f : String → String) (t : Token) : Token :=
  if t.kind = .ident then t.rename f else t

mutual

/-- Renames all identifiers in an expression. -/
def Expr.rename (f : String → String) : Expr → Expr
  | .identifier name => .identifier (name.rename f)
  | .integer t value => .integer t value
  | .boolean t value => .boolean t value
  | .string t => .string t
  | .prefixed t op operand => .prefixed t op (operand.rename f)
  | .binary t op left right => .binary t op (left.rename f) (right.rename f)
  | .conditional t condition consequence alternative =>
    .conditional t (condition.rename f) (consequence.rename f) (renameElse f alternative)
  | .function t parameters body => .function t (parameters.map (Token.rename f)) (body.rename f)
  | .call t callee arguments => .call t (callee.rename f) (renameAll f arguments)
  | .array t elements => .array t (renameAll f elements)
  | .hash t pairs => .hash t (renamePairs f pairs)
  | .index t base position => .index t (base.rename f) (position.rename f)

def renameAll (f : String → String) : List Expr → List Expr
  | [] => []
  | e :: es => e.rename f :: renameAll f es

def renamePairs (f : String → String) : List (Expr × Expr) → List (Expr × Expr)
  | [] => []
  | (key, value) :: pairs => (key.rename f, value.rename f) :: renamePairs f pairs

def renameElse (f : String → String) : Option Block → Option Block
  | none => none
  | some block => some (block.rename f)

def renameValue (f : String → String) : Option Expr → Option Expr
  | none => none
  | some value => some (value.rename f)

def Statement.rename (f : String → String) : Statement → Statement
  | .binding t name value => .binding t (name.rename f) (value.rename f)
  | .returning t value => .returning t (renameValue f value)
  | .expression t value => .expression (t.renameLead f) (value.rename f)

def renameStatements (f : String → String) : List Statement → List Statement
  | [] => []
  | s :: ss => s.rename f :: renameStatements f ss

def Block.rename (f : String → String) : Block → Block
  | ⟨t, statements⟩ => ⟨t, renameStatements f statements⟩

end

theorem Token.renameLead_id (t : Token) : t.renameLead id = t := by
  unfold renameLead
  split <;> rfl

mutual

theorem Expr.rename_id : ∀ e : Expr, e.rename id = e
  | .identifier _ | .integer _ _ | .boolean _ _ | .string _ => rfl
  | .prefixed _ _ a => by simp [Expr.rename, Expr.rename_id a]
  | .binary _ _ a b | .index _ a b => by simp [Expr.rename, Expr.rename_id a, Expr.rename_id b]
  | .conditional _ a b c => by
    simp [Expr.rename, Expr.rename_id a, Block.rename_id b, renameElse_id c]
  | .function _ ps b => by
    have hps : ps.map (Token.rename id) = ps := List.map_id ps
    simp [Expr.rename, Block.rename_id b, hps]
  | .call _ a as => by simp [Expr.rename, Expr.rename_id a, renameAll_id as]
  | .array _ as => by simp [Expr.rename, renameAll_id as]
  | .hash _ ps => by simp [Expr.rename, renamePairs_id ps]

theorem renameAll_id : ∀ es : List Expr, renameAll id es = es
  | [] => rfl
  | e :: es => by simp [renameAll, Expr.rename_id e, renameAll_id es]

theorem renamePairs_id : ∀ ps : List (Expr × Expr), renamePairs id ps = ps
  | [] => rfl
  | (k, v) :: ps => by simp [renamePairs, Expr.rename_id k, Expr.rename_id v, renamePairs_id ps]

theorem renameElse_id : ∀ b : Option Block, renameElse id b = b
  | none => rfl
  | some b => by simp [renameElse, Block.rename_id b]

theorem renameValue_id : ∀ e : Option Expr, renameValue id e = e
  | none => rfl
  | some e => by simp [renameValue, Expr.rename_id e]

theorem Statement.rename_id : ∀ s : Statement, s.rename id = s
  | .binding _ t e => by
    have ht : t.rename id = t := rfl
    simp [Statement.rename, Expr.rename_id e, ht]
  | .returning _ e => by simp [Statement.rename, renameValue_id e]
  | .expression t e => by simp [Statement.rename, Expr.rename_id e, Token.renameLead_id t]

theorem renameStatements_id : ∀ ss : List Statement, renameStatements id ss = ss
  | [] => rfl
  | s :: ss => by simp [renameStatements, Statement.rename_id s, renameStatements_id ss]

theorem Block.rename_id : ∀ b : Block, b.rename id = b
  | ⟨_, ss⟩ => by simp [Block.rename, renameStatements_id ss]

end

/-! ## Code of all sorts -/

inductive Code
  | expression (e : Expr)
  | expressions (es : List Expr)
  | pairs (ps : List (Expr × Expr))
  | statement (s : Statement)
  | statements (ss : List Statement)

namespace Code

def names : Code → List String
  | expression e => e.names
  | expressions es => namesAll es
  | pairs ps => namesPairs ps
  | statement s => s.names
  | statements ss => namesStatements ss

def rename (f : String → String) : Code → Code
  | expression e => expression (e.rename f)
  | expressions es => expressions (renameAll f es)
  | pairs ps => pairs (renamePairs f ps)
  | statement s => statement (s.rename f)
  | statements ss => statements (renameStatements f ss)

theorem rename_id (c : Code) : c.rename id = c := by
  cases c with
  | expression e => exact congrArg _ e.rename_id
  | expressions es => exact congrArg _ (renameAll_id es)
  | pairs ps => exact congrArg _ (renamePairs_id ps)
  | statement s => exact congrArg _ s.rename_id
  | statements ss => exact congrArg _ (renameStatements_id ss)

end Code

/-! ## Names that correspond -/

/-- Correspondences between names here and names there, each one to one, and each for a mode of
code. -/
structure Naming where
  Mode : Type
  names : Mode → String → String → Prop
  one_to_one : ∀ {μ a a' b b'}, names μ a a' → names μ b b' → (a = b ↔ a' = b')

namespace Naming

variable (N : Naming)

structure Name (μ : N.Mode) (t t' : Token) : Prop where
  name : N.names μ t.literal t'.literal
  kind : t'.kind = t.kind
  line : t'.line = t.line

structure Lead (μ : N.Mode) (t t' : Token) : Prop where
  name : t.kind = .ident → N.Name μ t t'
  other : t.kind ≠ .ident → t' = t

/-- What corresponds in the mode `ν` corresponds in the mode `μ`, except for parameters. -/
def Opens (μ ν : N.Mode) (parameters : List Token) : Prop :=
  ∀ a a', N.names ν a a' → N.names μ a a' ∨ a ∈ parameters.map (·.literal)

/-- The code is the same but for its names, which correspond. -/
inductive Corresponds : N.Mode → Code → Code → Prop
  | identifier {μ t t'} : N.Name μ t t' →
    Corresponds μ (.expression (.identifier t)) (.expression (.identifier t'))
  | integer {μ t value} :
    Corresponds μ (.expression (.integer t value)) (.expression (.integer t value))
  | boolean {μ t value} :
    Corresponds μ (.expression (.boolean t value)) (.expression (.boolean t value))
  | string {μ t} : Corresponds μ (.expression (.string t)) (.expression (.string t))
  | prefixed {μ t op a a'} : Corresponds μ (.expression a) (.expression a') →
    Corresponds μ (.expression (.prefixed t op a)) (.expression (.prefixed t op a'))
  | binary {μ t op a a' b b'} : Corresponds μ (.expression a) (.expression a') →
    Corresponds μ (.expression b) (.expression b') →
    Corresponds μ (.expression (.binary t op a b)) (.expression (.binary t op a' b'))
  | conditional {μ t u a a' ss ss'} : Corresponds μ (.expression a) (.expression a') →
    Corresponds μ (.statements ss) (.statements ss') →
    Corresponds μ (.expression (.conditional t a ⟨u, ss⟩ none))
      (.expression (.conditional t a' ⟨u, ss'⟩ none))
  | alternative {μ t u v a a' ss ss' rs rs'} : Corresponds μ (.expression a) (.expression a') →
    Corresponds μ (.statements ss) (.statements ss') →
    Corresponds μ (.statements rs) (.statements rs') →
    Corresponds μ (.expression (.conditional t a ⟨u, ss⟩ (some ⟨v, rs⟩)))
      (.expression (.conditional t a' ⟨u, ss'⟩ (some ⟨v, rs'⟩)))
  | function {μ ν t u ps ps' ss ss'} : N.Opens μ ν ps → List.Forall₂ (N.Name ν) ps ps' →
    Corresponds ν (.statements ss) (.statements ss') →
    Corresponds μ (.expression (.function t ps ⟨u, ss⟩)) (.expression (.function t ps' ⟨u, ss'⟩))
  | call {μ t a a' es es'} : Corresponds μ (.expression a) (.expression a') →
    Corresponds μ (.expressions es) (.expressions es') →
    Corresponds μ (.expression (.call t a es)) (.expression (.call t a' es'))
  | array {μ t es es'} : Corresponds μ (.expressions es) (.expressions es') →
    Corresponds μ (.expression (.array t es)) (.expression (.array t es'))
  | hash {μ t ps ps'} : Corresponds μ (.pairs ps) (.pairs ps') →
    Corresponds μ (.expression (.hash t ps)) (.expression (.hash t ps'))
  | index {μ t a a' b b'} : Corresponds μ (.expression a) (.expression a') →
    Corresponds μ (.expression b) (.expression b') →
    Corresponds μ (.expression (.index t a b)) (.expression (.index t a' b'))
  | noExpressions {μ} : Corresponds μ (.expressions []) (.expressions [])
  | expressions {μ e e' es es'} : Corresponds μ (.expression e) (.expression e') →
    Corresponds μ (.expressions es) (.expressions es') →
    Corresponds μ (.expressions (e :: es)) (.expressions (e' :: es'))
  | noPairs {μ} : Corresponds μ (.pairs []) (.pairs [])
  | pairs {μ k k' v v' ps ps'} : Corresponds μ (.expression k) (.expression k') →
    Corresponds μ (.expression v) (.expression v') → Corresponds μ (.pairs ps) (.pairs ps') →
    Corresponds μ (.pairs ((k, v) :: ps)) (.pairs ((k', v') :: ps'))
  | binding {μ t n n' e e'} : N.Name μ n n' → Corresponds μ (.expression e) (.expression e') →
    Corresponds μ (.statement (.binding t n e)) (.statement (.binding t n' e'))
  | bareReturn {μ t} :
    Corresponds μ (.statement (.returning t none)) (.statement (.returning t none))
  | returning {μ t e e'} : Corresponds μ (.expression e) (.expression e') →
    Corresponds μ (.statement (.returning t (some e))) (.statement (.returning t (some e')))
  | evaluated {μ t t' e e'} : N.Lead μ t t' → Corresponds μ (.expression e) (.expression e') →
    Corresponds μ (.statement (.expression t e)) (.statement (.expression t' e'))
  | noStatements {μ} : Corresponds μ (.statements []) (.statements [])
  | statements {μ s s' ss ss'} : Corresponds μ (.statement s) (.statement s') →
    Corresponds μ (.statements ss) (.statements ss') →
    Corresponds μ (.statements (s :: ss)) (.statements (s' :: ss'))

/-! ## Renamed code -/

variable {N} {μ ν : N.Mode} {f : String → String}

theorem Name.rename {t : Token} (h : N.names μ t.literal (f t.literal)) : N.Name μ t (t.rename f) :=
  ⟨h, rfl, rfl⟩

theorem Lead.rename {t : Token} (h : ∀ n ∈ t.leadNames, N.names μ n (f n)) :
    N.Lead μ t (t.renameLead f) where
  name ht := by
    rw [Token.renameLead, if_pos ht]
    exact .rename (h _ (by simp [Token.leadNames, ht]))
  other ht := by rw [Token.renameLead, if_neg ht]

theorem names_rename {ps : List Token} (h : ∀ n ∈ ps.map (·.literal), N.names μ n (f n)) :
    List.Forall₂ (N.Name μ) ps (ps.map (Token.rename f)) := by
  induction ps with
  | nil => exact .nil
  | cons p ps ih =>
    obtain ⟨hp, hps⟩ := List.forall_mem_cons.1 h
    exact .cons (.rename hp) (ih hps)

theorem opens_self (μ : N.Mode) (ps : List Token) : N.Opens μ μ ps := fun _ _ h => .inl h

mutual

theorem corresponds_expr : ∀ e : Expr, (∀ n ∈ e.names, N.names μ n (f n)) →
    N.Corresponds μ (.expression e) (.expression (e.rename f))
  | .identifier _, h => .identifier (.rename (h _ List.mem_cons_self))
  | .integer _ _, _ => .integer
  | .boolean _ _, _ => .boolean
  | .string _, _ => .string
  | .prefixed _ _ a, h => .prefixed (corresponds_expr a h)
  | .binary _ _ a b, h =>
    .binary (corresponds_expr a fun n hn => h n (List.mem_append_left _ hn))
      (corresponds_expr b fun n hn => h n (List.mem_append_right _ hn))
  | .conditional _ a ⟨_, ss⟩ none, h =>
    .conditional (corresponds_expr a fun n hn => h n (by simp [Expr.names, hn]))
      (corresponds_statements ss fun n hn => h n (by simp [Expr.names, Block.names, hn]))
  | .conditional _ a ⟨_, ss⟩ (some ⟨_, rs⟩), h =>
    .alternative (corresponds_expr a fun n hn => h n (by simp [Expr.names, hn]))
      (corresponds_statements ss fun n hn => h n (by simp [Expr.names, Block.names, hn]))
      (corresponds_statements rs fun n hn => h n (by simp [Expr.names, namesElse, Block.names, hn]))
  | .function _ ps ⟨_, ss⟩, h =>
    .function (opens_self μ ps) (names_rename fun n hn => h n (List.mem_append_left _ hn))
      (corresponds_statements ss fun n hn => h n (List.mem_append_right _ hn))
  | .call _ a es, h =>
    .call (corresponds_expr a fun n hn => h n (List.mem_append_left _ hn))
      (corresponds_all es fun n hn => h n (List.mem_append_right _ hn))
  | .array _ es, h => .array (corresponds_all es h)
  | .hash _ ps, h => .hash (corresponds_pairs ps h)
  | .index _ a b, h =>
    .index (corresponds_expr a fun n hn => h n (List.mem_append_left _ hn))
      (corresponds_expr b fun n hn => h n (List.mem_append_right _ hn))

theorem corresponds_all : ∀ es : List Expr, (∀ n ∈ namesAll es, N.names μ n (f n)) →
    N.Corresponds μ (.expressions es) (.expressions (renameAll f es))
  | [], _ => .noExpressions
  | e :: es, h =>
    .expressions (corresponds_expr e fun n hn => h n (List.mem_append_left _ hn))
      (corresponds_all es fun n hn => h n (List.mem_append_right _ hn))

theorem corresponds_pairs : ∀ ps : List (Expr × Expr), (∀ n ∈ namesPairs ps, N.names μ n (f n)) →
    N.Corresponds μ (.pairs ps) (.pairs (renamePairs f ps))
  | [], _ => .noPairs
  | (k, v) :: ps, h =>
    .pairs (corresponds_expr k fun n hn => h n (by simp [namesPairs, hn]))
      (corresponds_expr v fun n hn => h n (by simp [namesPairs, hn]))
      (corresponds_pairs ps fun n hn => h n (by simp [namesPairs, hn]))

theorem corresponds_statement : ∀ s : Statement, (∀ n ∈ s.names, N.names μ n (f n)) →
    N.Corresponds μ (.statement s) (.statement (s.rename f))
  | .binding _ _ e, h =>
    .binding (.rename (h _ List.mem_cons_self))
      (corresponds_expr e fun n hn => h n (List.mem_cons_of_mem _ hn))
  | .returning _ none, _ => .bareReturn
  | .returning _ (some e), h => .returning (corresponds_expr e h)
  | .expression _ e, h =>
    .evaluated (.rename fun n hn => h n (List.mem_append_left _ hn))
      (corresponds_expr e fun n hn => h n (List.mem_append_right _ hn))

theorem corresponds_statements : ∀ ss : List Statement,
    (∀ n ∈ namesStatements ss, N.names μ n (f n)) →
    N.Corresponds μ (.statements ss) (.statements (renameStatements f ss))
  | [], _ => .noStatements
  | s :: ss, h =>
    .statements (corresponds_statement s fun n hn => h n (List.mem_append_left _ hn))
      (corresponds_statements ss fun n hn => h n (List.mem_append_right _ hn))

end

theorem corresponds_rename (c : Code) (h : ∀ n ∈ c.names, N.names μ n (f n)) :
    N.Corresponds μ c (c.rename f) := by
  cases c with
  | expression e => exact corresponds_expr e h
  | expressions es => exact corresponds_all es h
  | pairs ps => exact corresponds_pairs ps h
  | statement s => exact corresponds_statement s h
  | statements ss => exact corresponds_statements ss h

theorem corresponds_self (c : Code) (h : ∀ n ∈ c.names, N.names μ n n) : N.Corresponds μ c c := by
  have hself : N.Corresponds μ c (c.rename id) := corresponds_rename c h
  rwa [c.rename_id] at hself

/-! ## Back to the names here -/

section Back

variable (hf : ∀ μ a a', N.names μ a a' → f a' = a)

include hf

theorem Name.back {t t' : Token} (h : N.Name μ t t') : t'.rename f = t := by
  obtain ⟨kind, literal, line⟩ := t
  obtain ⟨kind', literal', line'⟩ := t'
  obtain ⟨hname, rfl, rfl⟩ := h
  exact congrArg (Token.mk kind' · line') (hf _ _ _ hname)

theorem Lead.back {t t' : Token} (h : N.Lead μ t t') : t'.renameLead f = t := by
  unfold Token.renameLead
  by_cases ht : t.kind = .ident
  · have hname := h.name ht
    rw [if_pos (hname.kind.trans ht), hname.back hf]
  · rw [h.other ht, if_neg ht]

theorem names_back {ps ps' : List Token} (h : List.Forall₂ (N.Name μ) ps ps') :
    ps'.map (Token.rename f) = ps := by
  induction h with
  | nil => rfl
  | cons hp _ ih => rw [List.map_cons, hp.back hf, ih]

theorem Corresponds.back {c c' : Code} (h : N.Corresponds μ c c') : c'.rename f = c := by
  induction h with
  | integer | boolean | string | noExpressions | noPairs | bareReturn | noStatements => rfl
  | identifier ht => simp [Code.rename, Expr.rename, ht.back hf]
  | function _ hps =>
    simp_all [Code.rename, Expr.rename, Block.rename, names_back hf hps]
  | binding hn => simp_all [Code.rename, Statement.rename, hn.back hf]
  | evaluated ht => simp_all [Code.rename, Statement.rename, ht.back hf]
  | prefixed | binary | conditional | alternative | call | array | hash | index =>
    simp_all [Code.rename, Expr.rename, Block.rename, renameElse]
  | returning => simp_all [Code.rename, Statement.rename, renameValue]
  | expressions => simp_all [Code.rename, renameAll]
  | pairs => simp_all [Code.rename, renamePairs]
  | statements => simp_all [Code.rename, renameStatements]

end Back

end Naming

end Treewalk
