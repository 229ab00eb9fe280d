import Treewalk.Proofs.Parser.Faithful
import Treewalk.Proofs.Parser.Joints
import Treewalk.Proofs.Parser.Lines

/-!
# Optional semicolons

A semicolon may be left out unless the statements next to it would then be read as one: before an
opening parenthesis, an opening bracket or a minus sign, which go on with an expression, and behind
a bare `return`, which takes any expression for its value.
-/

namespace Treewalk

/-- A semicolon between these may be left out: before a closing brace or at the end, or before
what does not go on with an expression unless a `return` stands before it. -/
def Droppable (before after : List Token) : Prop :=
  (∀ t ∈ after.head?, t.kind = .rightBrace) ∨
    (∀ t ∈ after.head?, t.kind ∉ [.leftParen, .leftBracket, .minus]) ∧
      ∀ t ∈ before.getLast?, t.kind ≠ .returnWord

instance Droppable.decidable (before after : List Token) : Decidable (Droppable before after) :=
  inferInstanceAs (Decidable (_ ∨ _ ∧ _))

/-! ## Leaving out -/

namespace Droppable

variable {before after : List Token}

theorem of_append_left (ts : List Token) (h : Droppable (ts ++ before) after) :
    Droppable before after := by
  refine h.imp_right fun ⟨hafter, hbefore⟩ => ⟨hafter, fun t ht => hbefore t ?_⟩
  simp [List.getLast?_append, Option.mem_def.1 ht]

theorem of_append_right (ts : List Token) (h : Droppable before (after ++ ts)) :
    Droppable before after := by
  have hhead : ∀ t ∈ after.head?, t ∈ (after ++ ts).head? := by
    intro t ht
    simp [List.head?_append, Option.mem_def.1 ht]
  exact h.imp (fun hafter t ht => hafter t (hhead t ht)) fun ⟨hafter, hbefore⟩ =>
    ⟨fun t ht => hafter t (hhead t ht), hbefore⟩

theorem rank_eq_zero {kind : TokenKind} (h : kind.StartsStatement)
    (h' : kind ∉ [.leftParen, .leftBracket, .minus]) : (Precedence.ofKind kind).rank = 0 := by
  cases kind <;> simp_all [TokenKind.StartsStatement, TokenKind.StartsExpression,
    Precedence.ofKind, Precedence.rank]

theorem openTo {s : Statement} {ss : List Statement} (h : Droppable before after)
    (hs : Derives (.statement s) before) (hss : Derives (.statements ss) after) :
    s.OpenTo after := by
  rcases hss.starts with rfl | ⟨t, ts, rfl, ht⟩
  · cases s with
    | returning _ value => cases value <;> rfl
    | _ => rfl
  rcases h with hbrace | ⟨hafter, hbefore⟩
  · have hk := hbrace t rfl
    simp [hk, TokenKind.StartsStatement, TokenKind.StartsExpression] at ht
  have hrank : leadRank (t :: ts) = 0 := rank_eq_zero ht (hafter t rfl)
  cases hs with
  | bareReturn hr => exact absurd hr (hbefore _ rfl)
  | _ => exact hrank

end Droppable

/-- The text without a semicolon that may be left out, or all of it. -/
def Drops (us ts : List Token) : Prop :=
  us = ts ∨ ∃ before c after, c.kind = .semicolon ∧ Droppable before after ∧
    ts = before ++ c :: after ∧ us = before ++ after

namespace Drops

variable {us ts vs : List Token}

theorem refl (ts : List Token) : Drops ts ts := .inl rfl

theorem drop {before after : List Token} {c : Token} (hc : c.kind = .semicolon)
    (h : Droppable before after) : Drops (before ++ after) (before ++ c :: after) :=
  .inr ⟨before, c, after, hc, h, rfl, rfl⟩

theorem of_cons {t : Token} (ht : t.kind ≠ .semicolon) (h : Drops us (t :: ts)) :
    ∃ n vs, us = t.on n :: vs ∧ Drops vs ts := by
  rcases h with rfl | ⟨before, c, after, hc, hdrop, hts, rfl⟩
  · exact ⟨t.line, ts, rfl, refl ts⟩
  · cases before with
    | nil =>
      cases hts
      exact absurd hc ht
    | cons u before =>
      cases hts
      exact ⟨t.line, before ++ after, rfl, drop hc (hdrop.of_append_left [t])⟩

theorem of_append (h : Drops us (ts ++ vs)) :
    ∃ us₁ us₂, us = us₁ ++ us₂ ∧ Drops us₁ ts ∧ Drops us₂ vs := by
  rcases h with rfl | ⟨before, c, after, hc, hdrop, htext, rfl⟩
  · exact ⟨ts, vs, rfl, refl ts, refl vs⟩
  rcases List.append_eq_append_iff.1 htext with ⟨rest, rfl, rfl⟩ | ⟨_ | ⟨d, rest⟩, rfl, hrest⟩
  · exact ⟨ts, rest ++ after, by simp, refl ts, drop hc (hdrop.of_append_left ts)⟩
  · obtain rfl : c :: after = vs := hrest
    have hfirst : Droppable [] after := .of_append_left before (by simpa using hdrop)
    exact ⟨before, after, rfl, by simpa using refl before, drop hc hfirst⟩
  · obtain ⟨rfl, rfl⟩ := List.cons.inj hrest
    exact ⟨before ++ rest, vs, by simp, drop hc (hdrop.of_append_right vs), refl vs⟩

theorem of_ended {c : Token} {s : Statement} {ss : List Statement} (hs : Derives (.statement s) ts)
    (hss : Derives (.statements ss) vs) (h : Drops us (ts ++ c :: vs)) :
    ∃ us₁ us₂, Drops us₁ ts ∧ Drops us₂ vs ∧
      ((∃ n, us = us₁ ++ c.on n :: us₂) ∨ us = us₁ ++ us₂ ∧ s.OpenTo us₂) := by
  rcases h with rfl | ⟨before, d, after, hd, hdrop, htext, rfl⟩
  · exact ⟨ts, vs, refl ts, refl vs, .inl ⟨c.line, rfl⟩⟩
  rcases List.append_eq_append_iff.1 htext with
    ⟨_ | ⟨e, rest⟩, rfl, hrest⟩ | ⟨_ | ⟨e, rest⟩, rfl, hrest⟩
  · obtain ⟨rfl, rfl⟩ := List.cons.inj hrest
    rw [List.append_nil] at hdrop ⊢
    exact ⟨ts, vs, refl ts, refl vs, .inr ⟨rfl, hdrop.openTo hs hss⟩⟩
  · obtain ⟨rfl, rfl⟩ := List.cons.inj hrest
    have hinside : Droppable rest after := .of_append_left (ts ++ [c]) (by simpa using hdrop)
    exact ⟨ts, rest ++ after, refl ts, drop hd hinside, .inl ⟨c.line, by simp; rfl⟩⟩
  · obtain ⟨rfl, rfl⟩ := List.cons.inj hrest
    rw [List.append_nil] at hs ⊢
    exact ⟨before, after, refl before, refl after, .inr ⟨rfl, hdrop.openTo hs hss⟩⟩
  · obtain ⟨rfl, rfl⟩ := List.cons.inj hrest
    refine ⟨before ++ rest, vs, drop hd (hdrop.of_append_right (c :: vs)), refl vs, ?_⟩
    exact .inl ⟨c.line, (List.append_assoc before rest (c :: vs)).symm⟩

theorem harmless : Harmless Drops where
  of_nil h := by
    rcases h with rfl | ⟨before, c, after, -, -, htext, -⟩
    · rfl
    · simp at htext
  of_cons := of_cons
  of_append := of_append
  of_ended hs _ hss := of_ended hs hss

end Drops

/-! ## Joints that arise -/

/-- A token that counts alike with a semicolon before it and without one needs none there. Where
nothing stands before it that could end, the semicolon itself would count. -/
theorem Stand.goesOn_semicolon {s : Stand} {kind : TokenKind} (h : (s.goesOn kind).toNat =
    (s.goesOn .semicolon).toNat + (Stand.fresh.goesOn kind).toNat) :
    kind = .rightBrace ∨ kind ∉ [.leftParen, .leftBracket, .minus] ∧ s ≠ .returning := by
  cases s <;> cases kind <;> simp_all [goesOn, Precedence.ofKind, Precedence.rank]

/-- Without a semicolon that may not be left out, a text has not as many joints as with it. -/
theorem droppable_of_joints {before after : List Token} {c : Token} (hc : c.kind = .semicolon)
    (h : joints .fresh (before ++ after) = joints .fresh (before ++ c :: after)) :
    Droppable before after := by
  cases after with
  | nil => exact .inl fun t ht => nomatch ht
  | cons t ts =>
    have hstand : TokenKind.semicolon.stand = .fresh := rfl
    rw [joints_append, joints_append] at h
    simp only [joints_cons, hc, hstand] at h
    -- the counts only differ at the place of the semicolon
    have hjoint : ((Stand.fresh.behind before).goesOn t.kind).toNat =
        ((Stand.fresh.behind before).goesOn .semicolon).toNat +
          (Stand.fresh.goesOn t.kind).toNat := by omega
    refine (Stand.goesOn_semicolon hjoint).imp (fun hbrace => ?_) fun ⟨hafter, hbefore⟩ =>
      ⟨?_, fun u hu hk => hbefore ?_⟩
    · simpa using hbrace
    · simpa using hafter
    · simp [Stand.behind, Option.mem_def.1 hu, hk, TokenKind.stand]

open Treewalk.Parser

/-- Let a list of tokens parse without an error, and `c` be a semicolon in it, in a block or outside
of any. Without it the list parses to the same program up to lines, and without an error, if and
only if a closing brace or nothing comes next, or else neither an opening parenthesis nor an opening
bracket nor a minus sign does and no `return` stands right before it. -/
theorem semicolon_droppable {before after : List Token} {c : Token}
    (hts : ∀ t ∈ before ++ c :: after, t.kind ≠ .eof) (hc : c.kind = .semicolon)
    (h : (parseTokens (before ++ c :: after)).errors = []) :
    ((parseTokens (before ++ after)).errors = [] ∧
      (parseTokens (before ++ after)).program.map Statement.unlined =
        (parseTokens (before ++ c :: after)).program.map Statement.unlined) ↔
      Droppable before after := by
  have hd := derives_of_parseTokens hts h
  constructor
  · rintro ⟨hnone, hsame⟩
    have hd' := derives_of_parseTokens (fun t ht => hts t (by simp at ht ⊢; tauto)) hnone
    refine droppable_of_joints hc ?_
    rw [hd.joints_eq, hd'.joints_eq]
    exact jointsStatements_of_unlined hsame
  · intro hdrop
    obtain ⟨p, hp, hsame⟩ := hd.changed Drops.harmless (.drop hc hdrop)
    rw [parseTokens_of_derives hp]
    exact ⟨rfl, hsame⟩

theorem semicolon_droppable_return :
    let token (kind : TokenKind) (text : String) : Token := ⟨kind, text, 1⟩
    let before := [token .function "fn", token .leftParen "(", token .rightParen ")",
      token .leftBrace "\x7b", token .returnWord "return"]
    let c := token .semicolon ";"
    let last := [token .rightBrace "\x7d"]
    let more := token .ident "a" :: last
    ((∀ t ∈ before ++ c :: last, t.kind ≠ .eof) ∧ (parseTokens (before ++ c :: last)).errors = [] ∧
      (parseTokens (before ++ last)).program.map Statement.unlined =
        (parseTokens (before ++ c :: last)).program.map Statement.unlined) ∧
    (∀ t ∈ before ++ c :: more, t.kind ≠ .eof) ∧ (parseTokens (before ++ c :: more)).errors = [] ∧
      (parseTokens (before ++ more)).errors = [] ∧
      (parseTokens (before ++ more)).program.map Statement.unlined ≠
        (parseTokens (before ++ c :: more)).program.map Statement.unlined := by
  intro token before c last more
  have hlast : ∀ t ∈ before ++ c :: last, t.kind ≠ .eof := by decide
  have hmore : ∀ t ∈ before ++ c :: more, t.kind ≠ .eof := by decide
  have hsame := (semicolon_droppable hlast rfl rfl).2 (by decide)
  refine ⟨⟨hlast, rfl, hsame.2⟩, hmore, rfl, rfl, fun hequal => ?_⟩
  exact absurd ((semicolon_droppable hmore rfl rfl).1 ⟨rfl, hequal⟩) (by decide)

end Treewalk
