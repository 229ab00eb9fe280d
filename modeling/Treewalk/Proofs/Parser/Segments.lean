import Treewalk.Proofs.Parser.Indistinct
import Treewalk.Proofs.Parser.Seam

/-!
# Segments that parse apart

What follows a semicolon outside all braces changes nothing before it, and a broken `let` ends on
its semicolon. So a text of such segments is read segment by segment, whatever comes behind it.
-/

namespace Treewalk

open Treewalk.Parser

/-! ## What is skipped -/

namespace TokenKind

/-- A kind that may stand inside a broken statement without ending it. -/
def Skipped (kind : TokenKind) : Prop :=
  kind ≠ .semicolon ∧ kind ≠ .rightBrace ∧ kind ≠ .eof

end TokenKind

theorem Window.restOfStatement_append {js : List Token} (hjs : ∀ j ∈ js, j.kind.Skipped)
    {t : Token} (ht : t.kind ≠ .rightBrace) (rest : List Token) :
    restOfStatement (js ++ t :: rest) = restOfStatement (t :: rest) := by
  induction js with
  | nil => rfl
  | cons j js ih =>
    obtain ⟨hj, hjs⟩ := List.forall_mem_cons.1 hjs
    have hnext : (js ++ t :: rest).head?.map (·.kind) ≠ some .rightBrace := by
      cases js with
      | nil => simp [ht]
      | cons k js => simpa using (hjs k List.mem_cons_self).2.1
    rw [List.cons_append, restOfStatement, if_neg (by simp_all [TokenKind.Skipped])]
    exact ih hjs

theorem Window.restOfStatement_skipped {js : List Token} (hjs : ∀ j ∈ js, j.kind.Skipped)
    {c : Token} (hc : c.kind = .semicolon) (rest : List Token) :
    restOfStatement (js ++ c :: rest) = c :: rest := by
  rw [restOfStatement_append hjs (by simp [hc]), restOfStatement, if_pos (.inl hc)]

namespace Parser

/-! ## Programs at any depth that is large enough -/

/-- From some depth on, the statements up to the end of input are `p`, and the window is then `u`.
The depth of a statement may be larger than that of the list. -/
def ReadsProgram (w : Window) (p : Program) (u : Window) : Prop :=
  ∀ g : Nat → Nat, (∀ n, n ≤ g n) → Reads (fun n => untilKind .eof (statement (g n)) n) w p u

theorem le_shifted {g : Nat → Nat} (hg : ∀ n, n ≤ g n) (n : Nat) : n ≤ g (n + 1) :=
  Nat.le_trans (Nat.le_succ n) (hg _)

theorem ReadsProgram.cons {s : Statement} {p : Program} {w u v : Window}
    (hw : w.current.kind.StartsStatement) (hs : Reads statement w s u)
    (hp : ReadsProgram u.advance p v) : ReadsProgram w (s :: p) v :=
  fun _ hg => reads_untilKind_cons (.inr rfl) hg hw hs (hp _ (le_shifted hg))

theorem untilKind_lost {α : Type} {closing : TokenKind} {item : Parser α} {n : Nat} {w u : Window}
    (hw : ¬(w.current.kind = closing ∨ w.current.kind = .eof))
    (hitem : item w = some (.error (), u)) :
    untilKind closing item (n + 1) w = untilKind closing item n u.advance := by
  have hlost : item.attempt w = some (.ok (.error ()), u) := by
    rw [Run.attempt_apply, hitem]
    rfl
  have hmoved : advance u = some (.ok (), u.advance) := rfl
  rw [untilKind, Run.bind_ok (current_apply w), if_neg hw, Run.bind_ok hlost, Run.bind_ok hmoved]
  exact congrFun (bind_pure _) _

theorem ReadsProgram.lost {p : Program} {w u v : Window} (hw : w.current.kind ≠ .eof)
    (hs : ∀ n, statement (n + 1) w = some (.error (), u)) (hp : ReadsProgram u.advance p v) :
    ReadsProgram w p v := by
  intro g hg
  obtain ⟨m, hm⟩ := hp _ (le_shifted hg)
  refine ⟨m + 1, fun n hn => ?_⟩
  obtain ⟨n, rfl⟩ : ∃ k, n = k + 1 := ⟨n - 1, by omega⟩
  obtain ⟨d, hd⟩ : ∃ d, g (n + 1) = d + 1 := ⟨g (n + 1) - 1, by have := hg (n + 1); omega⟩
  have hlost : statement (g (n + 1)) w = some (.error (), u) := by rw [hd, hs d]
  have hrest : untilKind .eof (statement (g (n + 1))) n u.advance = some (.ok p, v) :=
    hm n (by omega)
  exact (untilKind_lost (by simpa using hw) hlost).trans hrest

theorem untilKind_ok {α : Type} {closing : TokenKind} {item : Parser α} {n : Nat} {w u : Window}
    {r : Except Unit (List α)} (h : untilKind closing item n w = some (r, u)) :
    ∃ as, r = .ok as := by
  induction n generalizing w r with
  | zero => cases h
  | succ n ih =>
    rw [untilKind, Run.bind_ok (current_apply w)] at h
    split at h
    · cases h
      exact ⟨[], rfl⟩
    -- An attempt and a move do not fail, and the rest does not by the hypothesis.
    rcases Run.bind_ends h with ⟨e, he, -⟩ | ⟨found, v, -, h⟩
    · rw [Run.attempt_apply] at he
      obtain ⟨_, -, hx⟩ := Option.map_eq_some_iff.1 he
      cases hx
    rcases Run.bind_ends h with ⟨e, he, -⟩ | ⟨_, _, -, h⟩
    · cases he
    rcases Run.bind_ends h with ⟨e, he, -⟩ | ⟨as, _, -, h⟩
    · obtain ⟨_, hok⟩ := ih he
      cases hok
    · cases found <;> cases h <;> exact ⟨_, rfl⟩

theorem ReadsProgram.of_answer {d : Nat} {w u : Window} {p : Program}
    (h : untilKind .eof (statement d) d w = some (.ok p, u)) : ReadsProgram w p u := by
  intro g hg
  refine ⟨d + 1, fun n hn => ?_⟩
  have hitem : Run.Refines (statement d) (statement (g n)) :=
    .of_le (fun n => (deepens n).statement) (Nat.le_trans (Nat.le_of_succ_le hn) (hg n))
  have hloop : Run.Refines (untilKind .eof (statement (g n)) (d + 1))
      (untilKind .eof (statement (g n)) n) :=
    .of_le (fun n => refines_untilKind (.refl _) .eof n) hn
  exact hloop w _ (refines_untilKind hitem .eof d w _ h)

end Parser

theorem parseTokens_of_readsProgram {ts : List Token} {p : Program} {u : Window}
    (h : ReadsProgram (Window.ofTokens ts) p u) : parseTokens ts = ⟨p, u.errors⟩ := by
  obtain ⟨r, hr⟩ := program_answers (w := Window.ofTokens ts) rfl
  have hread := h id Nat.le_refl
  have heq := hread.eq_of_refines (fun n => refines_untilKind (deepens n).statement .eof n) hr
  rw [heq] at hr
  exact parseTokens_of_ends hr

theorem ReadsProgram.of_alike {M : Window → Window → Prop} (hM : Window.Indistinct M)
    {w w' u : Window} (hw : M w w') {d : Nat} {p : Program}
    (h : untilKind .eof (statement d) d w = some (.ok p, u)) :
    ∃ u', ReadsProgram w' p u' ∧ M u u' := by
  have halike := alike_untilKind hM .eof (impartial hM d).statement d w w' hw
  rw [h] at halike
  generalize hx : untilKind .eof (statement d) d w' = x at halike
  obtain @⟨_, ⟨r', u'⟩, hsame, hu'⟩ := halike
  cases r' with
  | error => exact hsame.elim
  | ok p' =>
    obtain rfl : p = p' := hsame
    exact ⟨u', .of_answer hx, hu'⟩

theorem readsProgram_parseTokens (ts : List Token) (es : List SyntaxError) :
    ∃ u, ReadsProgram ⟨ts, (Window.ofTokens ts).eof, es⟩ (parseTokens ts).program u ∧
      u.errors = es ++ (parseTokens ts).errors := by
  let w := Window.ofTokens ts
  obtain ⟨⟨r, u⟩, hr⟩ := program_answers (w := w) rfl
  obtain ⟨p, rfl⟩ := untilKind_ok hr
  have hparse : parseTokens ts = ⟨p, u.errors⟩ := parseTokens_of_ends hr
  have hprecedes : Preceded es w ⟨ts, w.eof, es⟩ := by
    simp [Preceded, w, Window.ofTokens]
  obtain ⟨u', hread, rfl⟩ := ReadsProgram.of_alike (indistinct_preceded es) hprecedes hr
  rw [hparse]
  exact ⟨_, hread, rfl⟩

/-! ## Statements that end in a semicolon -/

theorem mayEnd_append {s : Statement} {ss : List Statement} {us : List Token} (hus : us ≠ [])
    (hopen : s.OpenTo us) (hd : Derives (.statements ss) us) {e : Token} (he : e.kind = .eof)
    (es : List SyntaxError) (t : Token) (rest : List Token) :
    MayEnd s ⟨t :: (us ++ rest), e, es⟩ := by
  obtain ⟨v, vs, rfl⟩ := List.exists_cons_of_ne_nil hus
  have hend : MayEnd s ⟨t :: (v :: vs ++ []), e, es⟩ := mayEnd_of_openTo (.inr rfl) hopen hd he
  exact hend

theorem Derives.readsProgram_append {ss : List Statement} {ts : List Token}
    (h : Derives (.statements ss) ts) (hts : Terminated ts) {rest : List Token} {e : Token}
    (he : e.kind = .eof) {es : List SyntaxError} {p : Program} {u : Window}
    (hp : ReadsProgram ⟨rest, e, es⟩ p u) : ReadsProgram ⟨ts ++ rest, e, es⟩ (ss ++ p) u := by
  generalize hx : Phrase.statements ss = x at h
  induction h generalizing ss with
  | nil =>
    cases hx
    exact hp
  | @ended c s more text us hs hc hss _ ih =>
    cases hx
    have hus : Terminated us := by
      rcases eq_or_ne us [] with rfl | hne
      · simp [Terminated]
      · have hends : Terminated ([c] ++ us) := hts.of_append (by simp)
        exact hends.of_append hne
    have hreadable : Readable e es _ _ := readable hs
    obtain ⟨_, _, -, hended, -⟩ := hreadable
    obtain ⟨t, fs, rfl, hstart⟩ := hs.starts
    rw [List.append_assoc, List.cons_append]
    exact .cons hstart (hended c (us ++ rest) hc) (ih hus rfl)
  | @unended s more text us hs hopen hss _ ih =>
    cases hx
    rcases eq_or_ne us [] with rfl | hne
    -- the last statement is closed by a semicolon, so it is no unended one
    · rw [List.append_nil] at hts
      exact absurd hts hs.unterminated.not_terminated
    · have hreadable : Readable e es _ _ := readable hs
      obtain ⟨_, last, -, -, hread⟩ := hreadable
      obtain ⟨t, fs, rfl, hstart⟩ := hs.starts
      have hend := mayEnd_append hne hopen hss he es last rest
      rw [List.append_assoc]
      exact .cons hstart (hread (us ++ rest) hend) (ih (hts.of_append hne) rfl)
  | _ => cases hx

/-! ## A broken `let` -/

/-- What a `let` lacks that is followed by the tokens `js` and then by its semicolon `c`. -/
def missing (js : List Token) (c : Token) : SyntaxError :=
  let first := js.head?.getD c
  let second := js.tail.head?.getD c
  if first.kind = .ident then .unexpected .assign second.kind second.line
  else .unexpected .ident first.kind first.line

/-- Neither starts a `let` nor goes on with one. -/
def NoBinding (js : List Token) : Prop :=
  ∀ i a rest, js = i :: a :: rest → ¬(i.kind = .ident ∧ a.kind = .assign)

theorem next_head (l : Token) (js : List Token) (c : Token) (rest : List Token) (e : Token)
    (es : List SyntaxError) :
    (Window.mk (l :: (js ++ c :: rest)) e es).next = js.head?.getD c := by
  cases js <;> rfl

theorem statement_broken {l c : Token} {js : List Token} (hl : l.kind = .letWord)
    (hbroken : NoBinding js) (hc : c.kind = .semicolon) (rest : List Token) (e : Token)
    (es : List SyntaxError) (n : Nat) :
    statement (n + 1) ⟨l :: (js ++ c :: rest), e, es⟩ = some (.error (),
      ⟨Window.restOfStatement (l :: (js ++ c :: rest)), e, es ++ [missing js c]⟩) := by
  have hnext := next_head l js c rest e es
  rw [statement, Run.bind_ok (current_apply _)]
  simp only [Window.current_cons, hl]
  by_cases hident : (js.head?.getD c).kind = .ident
  · -- The name is there, and what follows it is no equals sign.
    obtain ⟨i, js, rfl⟩ : ∃ i is, js = i :: is := by
      cases js with
      | nil => simp [hc] at hident
      | cons i is => exact ⟨i, is, rfl⟩
    have hi : i.kind = .ident := hident
    have hsecond := next_head i js c rest e es
    have hassign : (Window.mk (i :: (js ++ c :: rest)) e es).next.kind ≠ .assign := by
      rw [hsecond]
      cases js with
      | nil => simp [hc]
      | cons a js => exact fun ha => hbroken i a js rfl ⟨hident, ha⟩
    rw [Run.bind_ok (require_eq (by rw [hnext]; exact hident)), Run.bind_ok (current_apply _),
      missing, if_pos hident, List.cons_append, Window.restOfStatement, if_neg (by simp [hl, hi])]
    refine (Run.bind_error (require_ne hassign)).trans ?_
    rw [hsecond]
    rfl
  · -- The name itself is missing.
    rw [missing, if_neg hident]
    refine (Run.bind_error (require_ne (by rw [hnext]; exact hident))).trans ?_
    rw [hnext]
    rfl

theorem statement_missing {l c : Token} {js : List Token} (hl : l.kind = .letWord)
    (hjs : ∀ j ∈ js, j.kind.Skipped) (hbroken : NoBinding js) (hc : c.kind = .semicolon)
    (rest : List Token) (e : Token) (es : List SyntaxError) (n : Nat) :
    statement (n + 1) ⟨l :: (js ++ c :: rest), e, es⟩ =
      some (.error (), ⟨c :: rest, e, es ++ [missing js c]⟩) := by
  have hword : ∀ k ∈ l :: js, k.kind.Skipped :=
    List.forall_mem_cons.2 ⟨by simp [TokenKind.Skipped, hl], hjs⟩
  rw [statement_broken hl hbroken hc, ← List.cons_append,
    Window.restOfStatement_skipped hword hc]

/-! ## Segments -/

/-- A part of a text, with its last semicolon. -/
inductive Segment
  | statements (tokens : List Token)
  /-- A `let` without its name or its equals sign. -/
  | broken (word : Token) (inside : List Token) (semicolon : Token)

namespace Segment

def tokens : Segment → List Token
  | statements ts => ts
  | broken l js c => l :: (js ++ [c])

/-- Statements parse without an error and end in a semicolon. A broken `let` goes on to the first
semicolon, with neither a closing brace nor the end of input before it. -/
def WellFormed : Segment → Prop
  | statements ts => (∀ t ∈ ts, t.kind ≠ .eof) ∧ (parseTokens ts).errors = [] ∧
      ts.getLast?.map (·.kind) = some .semicolon
  | broken l js c => l.kind = .letWord ∧ (∀ j ∈ js, j.kind.Skipped) ∧ NoBinding js ∧
      c.kind = .semicolon

def program : Segment → Program
  | statements ts => (parseTokens ts).program
  | broken _ _ _ => []

def errors : Segment → List SyntaxError
  | statements _ => []
  | broken _ js c => [missing js c]

theorem WellFormed.reads {s : Segment} (h : s.WellFormed) {rest : List Token} {e : Token}
    (he : e.kind = .eof) {es : List SyntaxError} {p : Program} {u : Window}
    (hp : ReadsProgram ⟨rest, e, es ++ s.errors⟩ p u) :
    ReadsProgram ⟨s.tokens ++ rest, e, es⟩ (s.program ++ p) u := by
  cases s with
  | statements ts =>
    obtain ⟨heof, herrors, hlast⟩ := h
    rw [errors, List.append_nil] at hp
    refine (derives_of_parseTokens heof herrors).readsProgram_append (fun t ht => ?_) he hp
    rw [ht] at hlast
    exact Option.some.inj hlast
  | broken l js c =>
    obtain ⟨hl, hjs, hbroken, hc⟩ := h
    have hlost := statement_missing hl hjs hbroken hc rest e es
    rw [tokens, List.cons_append, List.append_assoc]
    exact .lost (by simp [hl]) hlost hp

end Segment

theorem reads_segments {segments : List Segment} (h : ∀ s ∈ segments, s.WellFormed)
    {rest : List Token} {e : Token} (he : e.kind = .eof) {es : List SyntaxError} {p : Program}
    {u : Window}
    (hp : ReadsProgram ⟨rest, e, es ++ segments.flatMap Segment.errors⟩ p u) :
    ReadsProgram ⟨segments.flatMap Segment.tokens ++ rest, e, es⟩
      (segments.flatMap Segment.program ++ p) u := by
  induction segments generalizing es with
  | nil => simpa using hp
  | cons s segments ih =>
    obtain ⟨hs, hrest⟩ := List.forall_mem_cons.1 h
    rw [List.flatMap_cons, List.flatMap_cons, List.append_assoc, List.append_assoc]
    refine hs.reads he (ih hrest ?_)
    rwa [List.flatMap_cons, ← List.append_assoc] at hp

theorem eof_ofTokens_append {ts : List Token} (hts : ts ≠ []) (before : List Token) :
    (Window.ofTokens (before ++ ts)).eof = (Window.ofTokens ts).eof := by
  simp only [Window.ofTokens, List.getLast?_append_of_ne_nil _ hts]

/-- A text of segments in front of any other text, malformed or not, parses to the statements of
its segments in order and then those of the other text by itself. The errors are one for each
broken `let`, namely what comes in place of the token that it lacks, and then those of the other
text by itself. -/
theorem segments_parse_apart (segments : List Segment) (h : ∀ s ∈ segments, s.WellFormed)
    (more : List Token) : parseTokens (segments.flatMap Segment.tokens ++ more) =
      ⟨segments.flatMap Segment.program ++ (parseTokens more).program,
        segments.flatMap Segment.errors ++ (parseTokens more).errors⟩ := by
  let e := (Window.ofTokens (segments.flatMap Segment.tokens ++ more)).eof
  -- Where the other text is empty, the end of input is on another line; but then nothing is read.
  obtain ⟨u, hread, hu⟩ : ∃ u,
      ReadsProgram ⟨more, e, segments.flatMap Segment.errors⟩ (parseTokens more).program u ∧
        u.errors = segments.flatMap Segment.errors ++ (parseTokens more).errors := by
    rcases eq_or_ne more [] with rfl | hmore
    · have hempty : parseTokens [] = ⟨[], []⟩ := rfl
      rw [hempty]
      refine ⟨_, fun g hg => readable_nil .eof [] g (.inr rfl) rfl hg, ?_⟩
      exact (List.append_nil _).symm
    · have heof : e = (Window.ofTokens more).eof := eof_ofTokens_append hmore _
      rw [heof]
      exact readsProgram_parseTokens more _
  rw [← hu]
  exact parseTokens_of_readsProgram (reads_segments h rfl hread)

/-- A binding, a `let` without a name, one without an equals sign, and an unclosed group. -/
theorem segments_parse_apart_unclosed :
    let token (kind : TokenKind) (text : String) (line : Nat) : Token := ⟨kind, text, line⟩
    let one : List Token := [token .letWord "let" 1, token .ident "x" 1, token .assign "=" 1,
      token .trueWord "true" 1, token .semicolon ";" 1]
    let segments : List Segment := [.statements one,
      .broken (token .letWord "let" 2) [token .assign "=" 2] (token .semicolon ";" 2),
      .broken (token .letWord "let" 3) [token .ident "y" 3] (token .semicolon ";" 3)]
    let more : List Token := [token .leftParen "(" 4, token .ident "x" 5]
    (∀ s ∈ segments, s.WellFormed) ∧
      parseTokens (segments.flatMap Segment.tokens ++ more) = ⟨(parseTokens one).program,
        [.unexpected .ident .assign 2, .unexpected .assign .semicolon 3,
          .unexpected .rightParen .eof 5]⟩ := by
  intro token one segments more
  have hsegments : ∀ s ∈ segments, s.WellFormed := by
    simp only [segments, List.forall_mem_cons]
    refine ⟨⟨by decide, rfl, rfl⟩, ⟨rfl, by simp [TokenKind.Skipped, token], ?_, rfl⟩,
      ⟨rfl, by simp [TokenKind.Skipped, token], ?_, rfl⟩, by simp⟩
    · rintro i a rest h
      cases h
    · rintro i a rest h
      cases h
  exact ⟨hsegments, (segments_parse_apart segments hsegments more).trans rfl⟩

end Treewalk
