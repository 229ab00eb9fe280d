import Treewalk.Program.Render

/-!
# Programs with other tokens

The tokens of a program changed one by one. A program is known up to lines when all of its tokens
are put on the same line. What it prints depends on the literals only.
-/

namespace Treewalk

/-! ## Changing tokens -/

mutual

/-- Changes the tokens of an expression: by `g` those that expression statements keep of their
expression, by `f` all others. -/
def Expr.mapTokens (f g : Token → Token) : Expr → Expr
  | .identifier t => .identifier (f t)
  | .integer t value => .integer (f t) value
  | .boolean t value => .boolean (f t) value
  | .string t => .string (f t)
  | .prefixed t op operand => .prefixed (f t) op (operand.mapTokens f g)
  | .binary t op left right => .binary (f t) op (left.mapTokens f g) (right.mapTokens f g)
  | .conditional t condition consequence alternative =>
    .conditional (f t) (condition.mapTokens f g) (consequence.mapTokens f g)
      (mapTokensElse f g alternative)
  | .function t parameters body => .function (f t) (parameters.map f) (body.mapTokens f g)
  | .call t callee arguments => .call (f t) (callee.mapTokens f g) (mapTokensAll f g arguments)
  | .array t elements => .array (f t) (mapTokensAll f g elements)
  | .hash t pairs => .hash (f t) (mapTokensPairs f g pairs)
  | .index t base position => .index (f t) (base.mapTokens f g) (position.mapTokens f g)

def mapTokensAll (f g : Token → Token) : List Expr → List Expr
  | [] => []
  | e :: es => e.mapTokens f g :: mapTokensAll f g es

def mapTokensPairs (f g : Token → Token) : List (Expr × Expr) → List (Expr × Expr)
  | [] => []
  | (key, value) :: pairs =>
    (key.mapTokens f g, value.mapTokens f g) :: mapTokensPairs f g pairs

def mapTokensElse (f g : Token → Token) : Option Block → Option Block
  | none => none
  | some block => some (block.mapTokens f g)

def mapTokensValue (f g : Token → Token) : Option Expr → Option Expr
  | none => none
  | some value => some (value.mapTokens f g)

def Statement.mapTokens (f g : Token → Token) : Statement → Statement
  | .binding t name value => .binding (f t) (f name) (value.mapTokens f g)
  | .returning t value => .returning (f t) (mapTokensValue f g value)
  | .expression t value => .expression (g t) (value.mapTokens f g)

def mapTokensStatements (f g : Token → Token) : List Statement → List Statement
  | [] => []
  | s :: ss => s.mapTokens f g :: mapTokensStatements f g ss

def Block.mapTokens (f g : Token → Token) : Block → Block
  | ⟨t, statements⟩ => ⟨f t, mapTokensStatements f g statements⟩

end

def Program.mapTokens (f g : Token → Token) (p : Program) : Program := mapTokensStatements f g p

section Lists

variable (f g : Token → Token)

theorem mapTokensAll_eq_map (es : List Expr) :
    mapTokensAll f g es = es.map (Expr.mapTokens f g) := by
  induction es with
  | nil => rfl
  | cons e es ih => rw [mapTokensAll, ih, List.map_cons]

theorem mapTokensPairs_eq_map (ps : List (Expr × Expr)) :
    mapTokensPairs f g ps = ps.map fun p => (p.1.mapTokens f g, p.2.mapTokens f g) := by
  induction ps with
  | nil => rfl
  | cons p ps ih => rw [mapTokensPairs, ih, List.map_cons]

theorem mapTokensStatements_eq_map (ss : List Statement) :
    mapTokensStatements f g ss = ss.map (Statement.mapTokens f g) := by
  induction ss with
  | nil => rfl
  | cons s ss ih => rw [mapTokensStatements, ih, List.map_cons]

@[simp] theorem Block.mapTokens_statements (b : Block) :
    (b.mapTokens f g).statements = b.statements.map (Statement.mapTokens f g) := by
  obtain ⟨t, ss⟩ := b
  exact mapTokensStatements_eq_map f g ss

end Lists

/-! ## Not at all -/

mutual

theorem Expr.mapTokens_id : ∀ e : Expr, e.mapTokens id id = e
  | .identifier _ | .integer _ _ | .boolean _ _ | .string _ => rfl
  | .prefixed _ _ a => by simp [Expr.mapTokens, Expr.mapTokens_id a]
  | .binary _ _ a b | .index _ a b => by
    simp [Expr.mapTokens, Expr.mapTokens_id a, Expr.mapTokens_id b]
  | .conditional _ a b c => by
    simp [Expr.mapTokens, Expr.mapTokens_id a, Block.mapTokens_id b, mapTokensElse_id c]
  | .function _ _ b => by simp [Expr.mapTokens, Block.mapTokens_id b]
  | .call _ a as => by simp [Expr.mapTokens, Expr.mapTokens_id a, mapTokensAll_id as]
  | .array _ as => by simp [Expr.mapTokens, mapTokensAll_id as]
  | .hash _ ps => by simp [Expr.mapTokens, mapTokensPairs_id ps]

theorem mapTokensAll_id : ∀ es : List Expr, mapTokensAll id id es = es
  | [] => rfl
  | e :: es => by simp [mapTokensAll, Expr.mapTokens_id e, mapTokensAll_id es]

theorem mapTokensPairs_id : ∀ ps : List (Expr × Expr), mapTokensPairs id id ps = ps
  | [] => rfl
  | (k, v) :: ps => by
    simp [mapTokensPairs, Expr.mapTokens_id k, Expr.mapTokens_id v, mapTokensPairs_id ps]

theorem mapTokensElse_id : ∀ b : Option Block, mapTokensElse id id b = b
  | none => rfl
  | some b => by simp [mapTokensElse, Block.mapTokens_id b]

theorem mapTokensValue_id : ∀ e : Option Expr, mapTokensValue id id e = e
  | none => rfl
  | some e => by simp [mapTokensValue, Expr.mapTokens_id e]

theorem Statement.mapTokens_id : ∀ s : Statement, s.mapTokens id id = s
  | .binding _ _ e => by simp [Statement.mapTokens, Expr.mapTokens_id e]
  | .returning _ e => by simp [Statement.mapTokens, mapTokensValue_id e]
  | .expression _ e => by simp [Statement.mapTokens, Expr.mapTokens_id e]

theorem mapTokensStatements_id : ∀ ss : List Statement, mapTokensStatements id id ss = ss
  | [] => rfl
  | s :: ss => by simp [mapTokensStatements, Statement.mapTokens_id s, mapTokensStatements_id ss]

theorem Block.mapTokens_id : ∀ b : Block, b.mapTokens id id = b
  | ⟨_, ss⟩ => by simp [Block.mapTokens, mapTokensStatements_id ss]

end

/-! ## Twice -/

section Twice

variable (f g f' g' : Token → Token)

mutual

theorem Expr.mapTokens_mapTokens : ∀ e : Expr,
    (e.mapTokens f g).mapTokens f' g' = e.mapTokens (f' ∘ f) (g' ∘ g)
  | .identifier _ | .integer _ _ | .boolean _ _ | .string _ => rfl
  | .prefixed _ _ a => by simp [Expr.mapTokens, Expr.mapTokens_mapTokens a]
  | .binary _ _ a b => by
    simp [Expr.mapTokens, Expr.mapTokens_mapTokens a, Expr.mapTokens_mapTokens b]
  | .conditional _ a b c => by
    simp [Expr.mapTokens, Expr.mapTokens_mapTokens a, Block.mapTokens_mapTokens b,
      mapTokensElse_mapTokensElse c]
  | .function _ _ b => by simp [Expr.mapTokens, Block.mapTokens_mapTokens b]
  | .call _ a as => by
    simp [Expr.mapTokens, Expr.mapTokens_mapTokens a, mapTokensAll_mapTokensAll as]
  | .array _ as => by simp [Expr.mapTokens, mapTokensAll_mapTokensAll as]
  | .hash _ ps => by simp [Expr.mapTokens, mapTokensPairs_mapTokensPairs ps]
  | .index _ a b => by
    simp [Expr.mapTokens, Expr.mapTokens_mapTokens a, Expr.mapTokens_mapTokens b]

theorem mapTokensAll_mapTokensAll : ∀ es : List Expr,
    mapTokensAll f' g' (mapTokensAll f g es) = mapTokensAll (f' ∘ f) (g' ∘ g) es
  | [] => rfl
  | e :: es => by simp [mapTokensAll, Expr.mapTokens_mapTokens e, mapTokensAll_mapTokensAll es]

theorem mapTokensPairs_mapTokensPairs : ∀ ps : List (Expr × Expr),
    mapTokensPairs f' g' (mapTokensPairs f g ps) = mapTokensPairs (f' ∘ f) (g' ∘ g) ps
  | [] => rfl
  | (k, v) :: ps => by
    simp [mapTokensPairs, Expr.mapTokens_mapTokens k, Expr.mapTokens_mapTokens v,
      mapTokensPairs_mapTokensPairs ps]

theorem mapTokensElse_mapTokensElse : ∀ b : Option Block,
    mapTokensElse f' g' (mapTokensElse f g b) = mapTokensElse (f' ∘ f) (g' ∘ g) b
  | none => rfl
  | some b => by simp [mapTokensElse, Block.mapTokens_mapTokens b]

theorem mapTokensValue_mapTokensValue : ∀ e : Option Expr,
    mapTokensValue f' g' (mapTokensValue f g e) = mapTokensValue (f' ∘ f) (g' ∘ g) e
  | none => rfl
  | some e => by simp [mapTokensValue, Expr.mapTokens_mapTokens e]

theorem Statement.mapTokens_mapTokens : ∀ s : Statement,
    (s.mapTokens f g).mapTokens f' g' = s.mapTokens (f' ∘ f) (g' ∘ g)
  | .binding _ _ e => by simp [Statement.mapTokens, Expr.mapTokens_mapTokens e]
  | .returning _ e => by simp [Statement.mapTokens, mapTokensValue_mapTokensValue e]
  | .expression _ e => by simp [Statement.mapTokens, Expr.mapTokens_mapTokens e]

theorem mapTokensStatements_mapTokensStatements : ∀ ss : List Statement,
    mapTokensStatements f' g' (mapTokensStatements f g ss) =
      mapTokensStatements (f' ∘ f) (g' ∘ g) ss
  | [] => rfl
  | s :: ss => by
    simp [mapTokensStatements, Statement.mapTokens_mapTokens s,
      mapTokensStatements_mapTokensStatements ss]

theorem Block.mapTokens_mapTokens : ∀ b : Block,
    (b.mapTokens f g).mapTokens f' g' = b.mapTokens (f' ∘ f) (g' ∘ g)
  | ⟨_, ss⟩ => by simp [Block.mapTokens, mapTokensStatements_mapTokensStatements ss]

end

end Twice

/-! ## Text -/

section Text

variable {f g : Token → Token}

mutual

theorem Expr.render_mapTokens (hf : ∀ t, (f t).literal = t.literal) :
    ∀ e : Expr, (e.mapTokens f g).render = e.render
  | .identifier t | .integer t _ | .boolean t _ | .string t => by
    simp [Expr.mapTokens, Expr.render, hf t]
  | .prefixed _ _ a => by simp [Expr.mapTokens, Expr.render, Expr.render_mapTokens hf a]
  | .binary _ _ a b => by
    simp [Expr.mapTokens, Expr.render, Expr.render_mapTokens hf a, Expr.render_mapTokens hf b]
  | .conditional _ a b none => by
    simp [Expr.mapTokens, mapTokensElse, Expr.render, Expr.render_mapTokens hf a,
      Block.render_mapTokens hf b]
  | .conditional _ a b (some c) => by
    simp [Expr.mapTokens, mapTokensElse, Expr.render, Expr.render_mapTokens hf a,
      Block.render_mapTokens hf b, Block.render_mapTokens hf c]
  | .function _ _ b => by
    simp [Expr.mapTokens, Expr.render, Block.render_mapTokens hf b, Function.comp_def, hf]
  | .call _ a as => by
    simp [Expr.mapTokens, Expr.render, Expr.render_mapTokens hf a, renderAll_mapTokensAll hf as]
  | .array _ as => by simp [Expr.mapTokens, Expr.render, renderAll_mapTokensAll hf as]
  | .hash _ ps => by simp [Expr.mapTokens, Expr.render, renderPairs_mapTokensPairs hf ps]
  | .index _ a b => by
    simp [Expr.mapTokens, Expr.render, Expr.render_mapTokens hf a, Expr.render_mapTokens hf b]

theorem renderAll_mapTokensAll (hf : ∀ t, (f t).literal = t.literal) :
    ∀ es : List Expr, renderAll (mapTokensAll f g es) = renderAll es
  | [] => rfl
  | e :: es => by
    simp [mapTokensAll, renderAll, Expr.render_mapTokens hf e, renderAll_mapTokensAll hf es]

theorem renderPairs_mapTokensPairs (hf : ∀ t, (f t).literal = t.literal) :
    ∀ ps : List (Expr × Expr), renderPairs (mapTokensPairs f g ps) = renderPairs ps
  | [] => rfl
  | (k, v) :: ps => by
    simp [mapTokensPairs, renderPairs, Expr.render_mapTokens hf k, Expr.render_mapTokens hf v,
      renderPairs_mapTokensPairs hf ps]

theorem Statement.render_mapTokens (hf : ∀ t, (f t).literal = t.literal) :
    ∀ s : Statement, (s.mapTokens f g).render = s.render
  | .binding _ n e => by
    simp [Statement.mapTokens, Statement.render, Expr.render_mapTokens hf e, hf n]
  | .returning _ none => rfl
  | .returning _ (some e) => by
    simp [Statement.mapTokens, mapTokensValue, Statement.render, Expr.render_mapTokens hf e]
  | .expression _ e => by simp [Statement.mapTokens, Statement.render, Expr.render_mapTokens hf e]

theorem renderStatements_mapTokensStatements (hf : ∀ t, (f t).literal = t.literal) :
    ∀ ss : List Statement, renderStatements (mapTokensStatements f g ss) = renderStatements ss
  | [] => rfl
  | s :: ss => by
    simp [mapTokensStatements, renderStatements, Statement.render_mapTokens hf s,
      renderStatements_mapTokensStatements hf ss]

theorem Block.render_mapTokens (hf : ∀ t, (f t).literal = t.literal) :
    ∀ b : Block, (b.mapTokens f g).render = b.render
  | ⟨_, ss⟩ => by
    simp [Block.mapTokens, Block.render, renderStatements_mapTokensStatements hf ss]

end

end Text

/-! ## Up to lines -/

def Token.unlined (t : Token) : Token := { t with line := 0 }

/-- The token on another line. -/
def Token.on (line : Nat) (t : Token) : Token := { t with line }

theorem Token.eq_on_of_unlined {t u : Token} (h : u.unlined = t.unlined) : u = t.on u.line := by
  obtain ⟨kind, literal, line⟩ := t
  obtain ⟨kind', literal', line'⟩ := u
  obtain ⟨rfl, rfl⟩ : kind' = kind ∧ literal' = literal := by simpa [unlined] using h
  rfl

@[simp] theorem Token.unlined_on (line : Nat) (t : Token) : (t.on line).unlined = t.unlined := rfl

abbrev Expr.unlined (e : Expr) : Expr := e.mapTokens Token.unlined Token.unlined

abbrev Statement.unlined (s : Statement) : Statement := s.mapTokens Token.unlined Token.unlined

abbrev Block.unlined (b : Block) : Block := b.mapTokens Token.unlined Token.unlined

abbrev Expr.bare (e : Expr) : Expr := e.mapTokens Token.unlined fun _ => .eof 0

abbrev Statement.bare (s : Statement) : Statement := s.mapTokens Token.unlined fun _ => .eof 0

abbrev Block.bare (b : Block) : Block := b.mapTokens Token.unlined fun _ => .eof 0

/-- A program up to lines and to what expression statements keep of their expression. -/
def Program.bare (p : Program) : Program := p.mapTokens Token.unlined fun _ => .eof 0

/-! ## Texts up to lines -/

/-- The texts are the same up to lines. -/
def Relined (us ts : List Token) : Prop := us.map Token.unlined = ts.map Token.unlined

namespace Relined

variable {t : Token} {us ts vs : List Token}

theorem append {us' ts' : List Token} (h : Relined us ts) (h' : Relined us' ts') :
    Relined (us ++ us') (ts ++ ts') := by
  rw [Relined, List.map_append, List.map_append, h, h']

theorem of_nil (h : Relined us []) : us = [] := List.map_eq_nil_iff.1 h

theorem of_cons (h : Relined us (t :: ts)) :
    ∃ n vs, us = t.on n :: vs ∧ Relined vs ts := by
  obtain ⟨u, vs, rfl, hu, hvs⟩ := List.map_eq_cons_iff.1 h
  exact ⟨u.line, vs, by rw [← Token.eq_on_of_unlined hu], hvs⟩

theorem of_append (h : Relined us (ts ++ vs)) :
    ∃ us₁ us₂, us = us₁ ++ us₂ ∧ Relined us₁ ts ∧ Relined us₂ vs := by
  rw [Relined, List.map_append] at h
  exact List.map_eq_append_iff.1 h

theorem of_between (h : Relined us (ts ++ t :: vs)) :
    ∃ us₁ n us₂, us = us₁ ++ t.on n :: us₂ ∧ Relined us₁ ts ∧ Relined us₂ vs := by
  obtain ⟨us₁, rest, rfl, hleft, hrest⟩ := h.of_append
  obtain ⟨n, us₂, rfl, hright⟩ := hrest.of_cons
  exact ⟨us₁, n, us₂, rfl, hleft, hright⟩

theorem of_snoc (h : Relined us (ts ++ [t])) : ∃ vs n, us = vs ++ [t.on n] ∧ Relined vs ts := by
  obtain ⟨vs, n, none, rfl, hvs, hnone⟩ := h.of_between
  rw [hnone.of_nil]
  exact ⟨vs, n, rfl, hvs⟩

end Relined

end Treewalk
