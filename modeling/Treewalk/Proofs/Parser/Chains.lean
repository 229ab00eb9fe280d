import Treewalk.Proofs.Parser.Complete

/-!
# Operator chains

Operands with infix operators between them have one grouping in which operators of higher
precedence bind tighter and equal ones group to the left. It is the one that is read.
-/

namespace Treewalk

/-- A text whose last token is no closing brace, so that no `else` can go on with it. -/
def Unbraced (ts : List Token) : Prop :=
  ∃ init last, ts = init ++ [last] ∧ last.kind ≠ .rightBrace

namespace Unbraced

variable {ts : List Token}

theorem snoc (init : List Token) {last : Token} {kind : TokenKind} (h : last.kind = kind)
    (hk : kind ≠ .rightBrace) : Unbraced (init ++ [last]) :=
  ⟨init, last, rfl, fun h' => hk (h.symm.trans h')⟩

theorem append (ts : List Token) {us : List Token} (h : Unbraced us) : Unbraced (ts ++ us) := by
  obtain ⟨init, last, rfl, hlast⟩ := h
  exact ⟨ts ++ init, last, (List.append_assoc _ _ _).symm, hlast⟩

theorem flatten {tss : List (List Token)} (h : Unbraced ts) (hs : ∀ us ∈ tss, Unbraced us) :
    Unbraced (ts ++ tss.flatten) := by
  induction tss generalizing ts with
  | nil => simpa using h
  | cons us tss ih =>
    rw [List.flatten_cons, ← List.append_assoc]
    exact ih (append ts (hs us (by simp))) fun vs hv => hs vs (by simp [hv])

end Unbraced

/-! ## Operands -/

/-- An identifier, a literal that is in range, or an expression in parentheses. -/
inductive Atom
  | identifier (t : Token) (ht : t.kind = .ident)
  | integer (t : Token) (v : Int64) (ht : t.kind = .int) (hv : readInt64 t.literal = some v)
  | string (t : Token) (ht : t.kind = .string)
  | trueWord (t : Token) (ht : t.kind = .trueWord)
  | falseWord (t : Token) (ht : t.kind = .falseWord)
  | group (o : Token) (inner : Expr) (ts : List Token) (c : Token) (ho : o.kind = .leftParen)
      (hd : Derives (.expression 0 inner) ts) (hc : c.kind = .rightParen)

namespace Atom

def expr : Atom → Expr
  | identifier t _ => .identifier t
  | integer t v _ _ => .integer t v
  | string t _ => .string t
  | trueWord t _ => .boolean t true
  | falseWord t _ => .boolean t false
  | group _ inner _ _ _ _ _ => inner

def text : Atom → List Token
  | identifier t _ | integer t _ _ _ | string t _ | trueWord t _ | falseWord t _ => [t]
  | group o _ ts c _ _ _ => o :: (ts ++ [c])

theorem derives (a : Atom) (k : Nat) : Derives (.expression k a.expr) a.text := by
  cases a with
  | identifier _ ht => exact .identifier ht
  | integer _ _ ht hv => exact .integer ht hv
  | string _ ht => exact .string ht
  | trueWord _ ht => exact .trueWord ht
  | falseWord _ ht => exact .falseWord ht
  | group _ _ _ _ ho hd hc => exact .group ho hd hc

theorem unbraced (a : Atom) : Unbraced a.text := by
  cases a with
  | identifier _ ht | string _ ht | trueWord _ ht | falseWord _ ht => exact .snoc [] ht (by simp)
  | integer _ _ ht _ => exact .snoc [] ht (by simp)
  | group o _ ts _ _ _ hc => exact .snoc (o :: ts) hc (by simp)

end Atom

/-- The arguments of a call or the position of an indexing, with the delimiters. -/
inductive Suffix
  | call (o : Token) (arguments : List (Expr × List Token)) (us : List Token) (c : Token)
      (ho : o.kind = .leftParen) (ha : ∀ a ∈ arguments, Derives (.expression 0 a.1) a.2)
      (hus : CommaSeparated (arguments.map (·.2)) us) (hc : c.kind = .rightParen)
  | index (o : Token) (position : Expr) (us : List Token) (c : Token) (ho : o.kind = .leftBracket)
      (hd : Derives (.expression 0 position) us) (hc : c.kind = .rightBracket)

namespace Suffix

def apply (left : Expr) : Suffix → Expr
  | call o arguments _ _ _ _ _ _ => .call o left (arguments.map (·.1))
  | index o position _ _ _ _ _ => .index o left position

def text : Suffix → List Token
  | call o _ us c _ _ _ _ | index o _ us c _ _ _ => o :: (us ++ [c])

theorem derives (s : Suffix) {left : Expr} {ts : List Token}
    (h : Derives (.expression Precedence.call.rank left) ts) :
    Derives (.expression Precedence.call.rank (s.apply left)) (ts ++ s.text) := by
  cases s with
  | call _ _ _ _ ho ha hus hc => exact .call (Nat.le_refl _) ho h ha hus hc
  | index _ _ _ _ ho hd hc => exact .index (Nat.le_refl _) ho h hd hc

theorem unbraced (s : Suffix) : Unbraced s.text := by
  cases s with
  | call o _ us _ _ _ _ hc => exact .snoc (o :: us) hc (by simp)
  | index o _ us _ _ _ hc => exact .snoc (o :: us) hc (by simp)

end Suffix

structure Prefix where
  token : Token
  op : PrefixOp
  valid : PrefixOp.ofKind? token.kind = some op

/-- An atom with suffixes behind it, which bind tightest, and prefix operators before all that. -/
structure Operand where
  prefixes : List Prefix
  atom : Atom
  suffixes : List Suffix

namespace Operand

def expr (o : Operand) : Expr :=
  o.prefixes.foldr (fun p e => .prefixed p.token p.op e) (o.suffixes.foldl Suffix.apply o.atom.expr)

def text (o : Operand) : List Token :=
  o.prefixes.map (·.token) ++ (o.atom.text ++ (o.suffixes.map (·.text)).flatten)

theorem derives_suffixes (ss : List Suffix) {e : Expr} {ts : List Token}
    (h : Derives (.expression Precedence.call.rank e) ts) :
    Derives (.expression Precedence.call.rank (ss.foldl Suffix.apply e))
      (ts ++ (ss.map (·.text)).flatten) := by
  induction ss generalizing e ts with
  | nil => simpa using h
  | cons s ss ih => simpa using ih (s.derives h)

theorem derives (o : Operand) : Derives (.expression Precedence.prefixed.rank o.expr) o.text := by
  obtain ⟨ps, a, ss⟩ := o
  unfold expr text
  have hbase := derives_suffixes ss (a.derives _)
  induction ps with
  | nil => exact hbase.weaken (by decide)
  | cons p ps ih => exact .prefixed (Nat.le_refl _) p.valid ih

theorem unbraced (o : Operand) : Unbraced o.text := by
  refine .append _ (o.atom.unbraced.flatten fun us hus => ?_)
  obtain ⟨s, -, rfl⟩ := List.mem_map.1 hus
  exact s.unbraced

end Operand

/-! ## Chains -/

structure ChainOp where
  token : Token
  op : InfixOp
  valid : InfixOp.ofKind? token.kind = some op

namespace ChainOp

def rank (t : ChainOp) : Nat := (Precedence.ofKind t.token.kind).rank

theorem rank_lt (t : ChainOp) : t.rank < Precedence.prefixed.rank := rank_lt_prefixed t.valid

end ChainOp

structure Chain where
  first : Operand
  rest : List (ChainOp × Operand)

namespace Chain

def linkText (x : ChainOp × Operand) : List Token := x.1.token :: x.2.text

def text (c : Chain) : List Token := c.first.text ++ (c.rest.map linkText).flatten

/-- The part before the first operator that does not bind more tightly than `p`. -/
def above (p : Precedence) (c : Chain) : Chain :=
  ⟨c.first, c.rest.takeWhile fun x => p.rank < x.1.rank⟩

def beyond (p : Precedence) (c : Chain) : List Token :=
  ((c.rest.dropWhile fun x => p.rank < x.1.rank).map linkText).flatten

theorem text_above (p : Precedence) (c : Chain) : (c.above p).text ++ c.beyond p = c.text := by
  unfold text above beyond
  rw [List.append_assoc, ← List.flatten_append, ← List.map_append, List.takeWhile_append_dropWhile]

theorem unbraced (c : Chain) : Unbraced c.text := by
  refine c.first.unbraced.flatten fun us hus => ?_
  obtain ⟨x, -, rfl⟩ := List.mem_map.1 hus
  exact .append [x.1.token] x.2.unbraced

end Chain

/-! ## Grouping -/

inductive ChainTree
  | leaf (o : Operand)
  | node (left : ChainTree) (t : ChainOp) (right : ChainTree)

namespace ChainTree

def expr : ChainTree → Expr
  | leaf o => o.expr
  | node left t right => .binary t.token t.op left.expr right.expr

/-- The chain that a tree groups. -/
def inorder : ChainTree → Chain
  | leaf o => ⟨o, []⟩
  | node left t right =>
    ⟨left.inorder.first, left.inorder.rest ++ (t, right.inorder.first) :: right.inorder.rest⟩

def top : ChainTree → Option ChainOp
  | leaf _ => none
  | node _ t _ => some t

/-- On the left of an operator the one on top binds at least as tightly, on the right more
tightly. -/
def Grouped : ChainTree → Prop
  | leaf _ => True
  | node left t right => left.Grouped ∧ right.Grouped ∧
    (∀ s ∈ left.top, t.rank ≤ s.rank) ∧ ∀ s ∈ right.top, t.rank < s.rank

def level : ChainTree → Nat
  | leaf _ => Precedence.prefixed.rank
  | node _ t _ => t.rank

theorem text_node (left right : ChainTree) (t : ChainOp) : (node left t right).inorder.text =
    left.inorder.text ++ t.token :: right.inorder.text := by
  simp [inorder, Chain.text, Chain.linkText]

theorem le_level {t : ChainOp} {tree : ChainTree} (h : ∀ s ∈ tree.top, t.rank ≤ s.rank) :
    t.rank ≤ tree.level := by
  cases tree with
  | leaf => exact Nat.le_of_lt t.rank_lt
  | node => exact h _ rfl

theorem lt_level {t : ChainOp} {tree : ChainTree} (h : ∀ s ∈ tree.top, t.rank < s.rank) :
    t.rank < tree.level := by
  cases tree with
  | leaf => exact t.rank_lt
  | node => exact h _ rfl

theorem Grouped.derives {tree : ChainTree} (h : tree.Grouped) :
    Derives (.expression tree.level tree.expr) tree.inorder.text := by
  induction tree with
  | leaf o =>
    rw [inorder, Chain.text, List.map_nil, List.flatten_nil, List.append_nil]
    exact o.derives
  | node left t right ihl ihr =>
    obtain ⟨hl, hr, htop, htop'⟩ := h
    rw [text_node]
    exact .binary (Nat.le_refl _) t.valid ((ihl hl).weaken (le_level htop))
      ((ihr hr).weaken (lt_level htop'))

/-- One more operand behind. The operator goes down the right side to where it belongs. -/
def push (s : ChainOp) (o : Operand) : ChainTree → ChainTree
  | leaf o' => node (leaf o') s (leaf o)
  | node left t right =>
    if t.rank < s.rank then node left t (right.push s o) else node (node left t right) s (leaf o)

theorem inorder_push (tree : ChainTree) (s : ChainOp) (o : Operand) :
    (tree.push s o).inorder = ⟨tree.inorder.first, tree.inorder.rest ++ [(s, o)]⟩ := by
  induction tree with
  | leaf => rfl
  | node left t right _ ihr =>
    rw [push]
    split
    · simp [inorder, ihr]
    · simp [inorder]

theorem top_push {tree : ChainTree} {s : ChainOp} {o : Operand} {t : ChainOp}
    (h : t ∈ (tree.push s o).top) : t = s ∨ t ∈ tree.top := by
  cases tree with
  | leaf =>
    cases h
    exact .inl rfl
  | node left t' right =>
    rw [push] at h
    split at h
    · exact .inr h
    · cases h
      exact .inl rfl

theorem Grouped.push {tree : ChainTree} (h : tree.Grouped) (s : ChainOp) (o : Operand) :
    (tree.push s o).Grouped := by
  induction tree with
  | leaf => exact ⟨trivial, trivial, by simp [top], by simp [top]⟩
  | node left t right _ ihr =>
    rw [ChainTree.push]
    split
    · rename_i hlt
      obtain ⟨hl, hr, htop, htop'⟩ := h
      refine ⟨hl, ihr hr, htop, fun u hu => ?_⟩
      rcases top_push hu with rfl | hu
      · exact hlt
      · exact htop' u hu
    · rename_i hle
      refine ⟨h, trivial, fun u hu => ?_, by simp [top]⟩
      cases hu
      exact Nat.le_of_not_lt hle

end ChainTree

/-- The grouping of a chain, operand after operand. -/
def Chain.tree (c : Chain) : ChainTree :=
  c.rest.foldl (fun tree x => tree.push x.1 x.2) (.leaf c.first)

theorem Chain.tree_spec (c : Chain) : c.tree.Grouped ∧ c.tree.inorder = c := by
  have hfold : ∀ (xs : List (ChainOp × Operand)) (tree : ChainTree), tree.Grouped →
      (xs.foldl (fun tree x => tree.push x.1 x.2) tree).Grouped ∧
      (xs.foldl (fun tree x => tree.push x.1 x.2) tree).inorder =
        ⟨tree.inorder.first, tree.inorder.rest ++ xs⟩ := by
    intro xs
    induction xs with
    | nil => exact fun tree h => ⟨h, by simp⟩
    | cons x xs ih =>
      intro tree h
      obtain ⟨hgrouped, hinorder⟩ := ih _ (h.push x.1 x.2)
      refine ⟨hgrouped, ?_⟩
      rw [List.foldl_cons, hinorder, ChainTree.inorder_push]
      simp
  obtain ⟨hgrouped, hinorder⟩ := hfold c.rest (.leaf c.first) trivial
  exact ⟨hgrouped, hinorder⟩

/-! ## Reading -/

open Treewalk.Parser

theorem Chain.rank_beyond {c : Chain} {p : Precedence} {rest : List Token} {e : Token}
    (hrest : Precedence.ofKind (rest.head?.getD e).kind = .lowest) :
    (Precedence.ofKind ((c.beyond p ++ rest).head?.getD e).kind).rank ≤ p.rank := by
  have hstop := List.head?_dropWhile_not (fun x : ChainOp × Operand => p.rank < x.1.rank) c.rest
  unfold beyond
  cases hdrop : c.rest.dropWhile fun x => p.rank < x.1.rank with
  | nil =>
    rw [List.map_nil, List.flatten_nil, List.nil_append, hrest]
    exact Nat.zero_le _
  | cons x xs =>
    rw [hdrop] at hstop
    have hle : x.1.rank ≤ p.rank := by simpa using hstop
    exact hle

theorem ChainTree.admits {tree : ChainTree} {c : Chain} {p : Precedence}
    (hp : p.rank ≤ Precedence.prefixed.rank) (h : tree.inorder = c.above p) :
    Admits p tree.level ∧ p.rank ≤ tree.level := by
  cases tree with
  | leaf => exact ⟨admits_prefixed hp, hp⟩
  | node left t right =>
    have hmem : (t, right.inorder.first) ∈ (c.above p).rest := by
      rw [← h]
      simp [inorder]
    have hlt : p.rank < t.rank := by
      simpa using List.all_eq_true.1 List.all_takeWhile _ hmem
    exact ⟨(admits_succ p).mono hlt, Nat.le_of_lt hlt⟩

/-- Reading above `p` an operator chain that ends before what no infix operator starts takes the
operators before the first one that does not bind above `p`, and their operands. What it gives is
the grouping of that part. -/
theorem expression_chain (c : Chain) (p : Precedence) (hp : p.rank ≤ Precedence.prefixed.rank)
    (w : Window) (he : w.eof.kind = .eof) (rest : List Token) (hw : w.tokens = c.text ++ rest)
    (hrest : Precedence.ofKind (rest.head?.getD w.eof).kind = .lowest) :
    (∃ tree : ChainTree, tree.Grouped ∧ tree.inorder = c.above p) ∧
    ∀ tree : ChainTree, tree.Grouped → tree.inorder = c.above p →
      ∃ last, (c.above p).text.getLast? = some last ∧ w.expression p =
        (some tree.expr, { w with tokens := last :: (c.beyond p ++ rest) }) := by
  refine ⟨⟨_, (c.above p).tree_spec⟩, fun tree hgrouped hinorder => ?_⟩
  have hd := hgrouped.derives
  rw [hinorder] at hd
  obtain ⟨init, last, htext, hread⟩ := (readable (e := w.eof) hd).reads
  -- a chain does not end on a brace, so it fits before an `else`
  have hlast : last.kind ≠ .rightBrace := by
    obtain ⟨init', last', htext', hlast⟩ := (c.above p).unbraced
    rw [htext'] at htext
    obtain ⟨-, h⟩ := List.append_inj' htext rfl
    cases h
    exact hlast
  obtain ⟨hadmits, hlevel⟩ := ChainTree.admits hp hinorder
  have hrank := Chain.rank_beyond (c := c) (p := p) hrest
  have hreads := hread p (c.beyond p ++ rest) hadmits
    ⟨Nat.le_trans hrank hlevel, fun h => absurd h hlast⟩ hrank
  rw [← List.append_assoc, c.text_above, ← hw] at hreads
  obtain ⟨r, hr⟩ := expression_answers p he
  have heq := hreads.eq_of_refines (fun n => (deepens n).expression p) hr
  refine ⟨last, by rw [htext]; simp, ?_⟩
  rw [Window.expression, hr, heq]

/-- In `a - b * -c - d)` the first subtraction is the left side of the second one. -/
theorem expression_chain_subtractions :
    let name (s : String) : Token := ⟨.ident, s, 1⟩
    let minus : Token := ⟨.minus, "-", 1⟩
    let star : Token := ⟨.star, "*", 1⟩
    let close : Token := ⟨.rightParen, ")", 1⟩
    Window.expression .lowest ⟨[name "a", minus, name "b", star, minus, name "c", minus, name "d",
        close], .eof 1, []⟩ =
      (some (.binary minus .sub
        (.binary minus .sub (.identifier (name "a"))
          (.binary star .mul (.identifier (name "b"))
            (.prefixed minus .negate (.identifier (name "c")))))
        (.identifier (name "d"))), ⟨[name "d", close], .eof 1, []⟩) := by
  intro name minus star close
  let operand (s : String) : Operand := ⟨[], .identifier (name s) rfl, []⟩
  let sub : ChainOp := ⟨minus, .sub, rfl⟩
  let c : Chain := ⟨operand "a", [(sub, operand "b"),
    (⟨star, .mul, rfl⟩, ⟨[⟨minus, .negate, rfl⟩], .identifier (name "c") rfl, []⟩),
    (sub, operand "d")]⟩
  have hread := (expression_chain c .lowest (by decide) ⟨c.text ++ [close], .eof 1, []⟩ rfl [close]
    rfl rfl).2 c.tree c.tree_spec.1 c.tree_spec.2
  obtain ⟨last, hlast, hread⟩ := hread
  have hd : name "d" = last := Option.some.inj hlast
  rw [← hd] at hread
  exact hread

end Treewalk
