import Treewalk.Host.CommandLine
import Treewalk.Proofs.Eval.Output

/-!
# What the prompt shows

The prompt marks where a line is to come, and after each line it shows what the line printed and
then its value or its error. So a line shows what a script of the same text writes.
-/

namespace Treewalk

/-! ## Texts as bytes -/

def textBytes (s : String) : List UInt8 := s.toUTF8.data.toList

theorem decodeText_textBytes (s : String) : decodeText (textBytes s) = some s :=
  dif_pos s.isValidUTF8

theorem toNat_of_mem_utf8EncodeChar {c : Char} {b : UInt8} (h : b ∈ String.utf8EncodeChar c)
    (hb : b.toNat < 128) : c.toNat = b.toNat := by
  have hc : c.val.toNat = c.toNat := rfl
  unfold String.utf8EncodeChar at h
  dsimp only at h
  rw [hc] at h
  repeat' split at h
  all_goals
    simp only [List.mem_cons, List.not_mem_nil, or_false] at h
    rcases h with rfl | rfl | rfl | rfl <;> simp at hb ⊢ <;> omega

theorem mem_toList_of_mem_textBytes {s : String} {c : Char} (hc : c.toNat < 128)
    (h : UInt8.ofNat c.toNat ∈ textBytes s) : c ∈ s.toList := by
  have hbytes : textBytes s = s.toList.flatMap String.utf8EncodeChar := by
    unfold textBytes
    rw [String.toUTF8_eq_toByteArray, ← String.utf8Encode_toList]
    simp [List.utf8Encode]
  rw [hbytes] at h
  obtain ⟨d, hd, hmem⟩ := List.mem_flatMap.1 h
  have hnat : (UInt8.ofNat c.toNat).toNat = c.toNat := by simp; omega
  have heq := toNat_of_mem_utf8EncodeChar hmem (by omega)
  rw [hnat] at heq
  rwa [← Char.toNat_inj.1 heq]

/-- Text on one line. -/
def Unbroken (s : String) : Prop := '\n' ∉ s.toList ∧ '\r' ∉ s.toList

namespace Unbroken

variable {s : String}

theorem lineFeed (h : Unbroken s) : 10 ∉ textBytes s :=
  fun hmem => h.1 (mem_toList_of_mem_textBytes (by decide) hmem)

theorem carriageReturn (h : Unbroken s) : 13 ∉ textBytes s :=
  fun hmem => h.2 (mem_toList_of_mem_textBytes (by decide) hmem)

end Unbroken

/-! ## Lines of bytes -/

theorem withoutReturn_of_not_mem {reversed : List UInt8} (h : 13 ∉ reversed) :
    withoutReturn reversed = reversed := by
  unfold withoutReturn
  split
  · simp at h
  · rfl

theorem linesAfter_append {line : List UInt8} (h : 10 ∉ line) (reversed rest : List UInt8) :
    linesAfter reversed (line ++ rest) = linesAfter (line.reverse ++ reversed) rest := by
  induction line generalizing reversed with
  | nil => rfl
  | cons b line ih =>
    have hb : b ≠ 10 := (List.ne_of_not_mem_cons h).symm
    rw [List.cons_append, linesAfter, if_neg hb, ih (List.not_mem_of_not_mem_cons h)]
    simp

theorem byteLines_cons {line : List UInt8} (h : 10 ∉ line) (rest : List UInt8) :
    byteLines (line ++ 10 :: rest) = (withoutReturn line.reverse).reverse :: byteLines rest := by
  unfold byteLines
  rw [linesAfter_append h, linesAfter, if_pos rfl, List.append_nil]

/-- A line as it is typed. -/
def typed (s : String) : List UInt8 := textBytes s ++ [10]

theorem byteLines_typed {sources : List String} (h : ∀ s ∈ sources, Unbroken s)
    (rest : List UInt8) :
    byteLines (sources.flatMap typed ++ rest) = sources.map textBytes ++ byteLines rest := by
  induction sources with
  | nil => rfl
  | cons s sources ih =>
    obtain ⟨hs, hsources⟩ := List.forall_mem_cons.1 h
    have hsplit : (s :: sources).flatMap typed ++ rest =
        textBytes s ++ 10 :: (sources.flatMap typed ++ rest) := by
      simp [typed]
    rw [hsplit, byteLines_cons hs.lineFeed, ih hsources, withoutReturn_of_not_mem,
      List.reverse_reverse]
    · rfl
    · simpa using hs.carriageReturn

theorem decodeText_withoutReturn {bytes : List UInt8} (h : decodeText bytes = none) :
    decodeText (withoutReturn bytes.reverse).reverse = none := by
  unfold withoutReturn
  split
  · rename_i reversed hreversed
    have hbytes : bytes = reversed.reverse ++ [13] := by
      rw [← List.reverse_reverse bytes, hreversed, List.reverse_cons]
    refine dif_neg fun hvalid => ?_
    -- valid text stays so with a carriage return at its end
    have hpush := hvalid.push (c := '\r') (by decide)
    have hsame : (ByteArray.mk reversed.reverse.toArray).push '\r'.toUInt8 =
        ⟨bytes.toArray⟩ := by
      rw [hbytes]
      exact congrArg ByteArray.mk (List.push_toArray _ _)
    rw [hsame] at hpush
    rw [decodeText, String.fromUTF8?, dif_pos hpush] at h
    cases h
  · rwa [List.reverse_reverse]

theorem byteLines_undecodable {bytes rest : List UInt8} (h : decodeText bytes = none)
    (hbytes : 10 ∉ bytes) (hrest : rest = [] ∨ rest.head? = some 10) :
    ∃ line later, byteLines (bytes ++ rest) = line :: later ∧ decodeText line = none := by
  rcases hrest with rfl | hrest
  · have hne : bytes ≠ [] := by
      rintro rfl
      have hempty : decodeText [] = some "" := decodeText_textBytes ""
      rw [hempty] at h
      cases h
    refine ⟨bytes, [], ?_, h⟩
    unfold byteLines
    rw [linesAfter_append hbytes, linesAfter, List.append_nil, List.reverse_reverse, if_neg]
    simpa using hne
  · obtain ⟨later, rfl⟩ := List.head?_eq_some_iff.1 hrest
    exact ⟨_, _, byteLines_cons hbytes later, decodeText_withoutReturn h⟩

/-! ## What lines show -/

/-- The machine as if this were all that it printed. -/
def Machine.withOutput (text : String) (m : Machine) : Machine := { m with output := text }

theorem Machine.after_withOutput (text text' : String) (m : Machine) :
    (m.withOutput text').after text = m.withOutput (text ++ text') := rfl

theorem interpret_after (n : Nat) (k : ScopeId) (source text : String) (m : Machine) :
    interpret n k source (m.after text) =
      (interpret n k source m).map fun (r, m') => (r, m'.after text) := by
  unfold interpret
  dsimp only
  split
  · rw [Eval.program_after, Option.map_map, Option.map_map]
    rfl
  · rfl

namespace Prompt

/-- What a line shows by itself, and the machine after it. -/
def answer (depth : Nat) (source : String) (m : Machine) : Option (String × Machine) :=
  if isBlankText source then some ("", m)
  else
    (interpret depth Machine.root source (m.withOutput "")).map fun (r, m') =>
      match r with
      | .ok .null => (m'.output, m')
      | .ok o => (m'.output ++ o.display ++ "\n", m')
      | .error f => (m'.output ++ f.message ++ "\n", m')

/-- What lines show, each in the machine after those before it. -/
def answers (depth : Nat) : List String → Machine → Option (List String × Machine)
  | [], m => some ([], m)
  | source :: sources, m =>
    (answer depth source m).bind fun (x, m₁) =>
      (answers depth sources m₁).map fun (xs, m') => (x :: xs, m')

/-- What lines show in a session of their own. -/
def shown (depth : Nat) (sources : List String) : Option (List String) :=
  (answers depth sources .fresh).map (·.1)

/-- The marks with what lines show in between. -/
def transcript (xs : List String) : String := ">> " ++ String.join (xs.map (· ++ ">> "))

theorem line_withOutput (depth : Nat) (source before : String) (m : Machine) :
    line depth source (m.withOutput before) = (answer depth source m).map fun (x, m') =>
      m'.withOutput (before ++ x ++ mark) := by
  unfold line answer
  split
  · show some (m.withOutput (before ++ mark)) = some (m.withOutput (before ++ "" ++ mark))
    rw [String.append_empty]
  · have hbefore : m.withOutput before = (m.withOutput "").after before := by
      rw [Machine.after_withOutput, String.append_empty]
    rw [hbefore, interpret_after]
    cases interpret depth Machine.root source (m.withOutput "") with
    | none => rfl
    | some u =>
      obtain ⟨r, m'⟩ := u
      refine congrArg some ?_
      show m'.withOutput (before ++ m'.output ++ reply r ++ mark) = _
      unfold reply
      split <;> simp [String.append_assoc]

theorem lines_append (depth : Nat) (sources : List String) (rest : List (List UInt8))
    (before : String) (m : Machine) :
    lines depth (sources.map textBytes ++ rest) (m.withOutput before) =
      (answers depth sources m).bind fun (xs, m') =>
        lines depth rest (m'.withOutput (before ++ String.join (xs.map (· ++ mark)))) := by
  -- What earlier lines printed stays in front, so a line only counts by what it adds.
  induction sources generalizing before m with
  | nil => simp [answers]
  | cons source sources ih =>
    rw [List.map_cons, List.cons_append, lines, decodeText_textBytes, answers]
    simp only [line_withOutput]
    cases answer depth source m with
    | none => rfl
    | some u =>
      obtain ⟨x, m₁⟩ := u
      simp only [Option.map_some, Option.bind_some, ih]
      cases answers depth sources m₁ with
      | none => rfl
      | some v =>
        obtain ⟨xs, m'⟩ := v
        simp [String.append_assoc]

theorem start_eq : start = Machine.fresh.withOutput mark := by
  show Machine.fresh.withOutput ("" ++ mark) = _
  rw [String.empty_append]

theorem run_typed (depth : Nat) {sources : List String} (h : ∀ s ∈ sources, Unbroken s)
    (rest : List UInt8) :
    run depth (sources.flatMap typed ++ rest) =
      (answers depth sources .fresh).bind fun (xs, m) =>
        lines depth (byteLines rest) (m.withOutput (transcript xs)) := by
  rw [run, byteLines_typed h, start_eq]
  exact lines_append depth sources (byteLines rest) mark .fresh

theorem run_typed_all (depth : Nat) {sources : List String} (h : ∀ s ∈ sources, Unbroken s) :
    run depth (sources.flatMap typed) =
      (shown depth sources).map fun xs => ⟨0, transcript xs ++ "\n", ""⟩ := by
  have hrun := run_typed depth h []
  rw [List.append_nil] at hrun
  rw [hrun, shown, Option.map_map]
  cases answers depth sources .fresh <;> rfl

theorem run_typed_undecodable (depth : Nat) {sources : List String}
    (h : ∀ s ∈ sources, Unbroken s) {bytes rest : List UInt8} (hbytes : decodeText bytes = none)
    (hline : 10 ∉ bytes) (hrest : rest = [] ∨ rest.head? = some 10) :
    run depth (sources.flatMap typed ++ (bytes ++ rest)) =
      (shown depth sources).map fun xs => ⟨1, transcript xs, invalidText⟩ := by
  obtain ⟨line, later, hlines, hdecode⟩ := byteLines_undecodable hbytes hline hrest
  rw [run_typed depth h, hlines, shown, Option.map_map]
  simp only [lines, hdecode]
  cases answers depth sources .fresh <;> rfl

theorem shown_one (depth : Nat) {source : String} (h : isBlankText source = false) {o : Options}
    (hpipe : o.pipeMode = true) (hprint : o.printProgram = false) :
    shown depth [source] =
      (CommandLine.execute depth o source).map fun r => [r.stdout ++ r.stderr] := by
  have hfresh : Machine.fresh.withOutput "" = .fresh := rfl
  unfold shown answers answer CommandLine.execute runScript
  rw [h, hpipe, hprint, hfresh]
  cases interpret depth Machine.root source .fresh with
  | none => rfl
  | some u =>
    obtain ⟨f | o, m⟩ := u
    · exact congrArg (some [·]) String.append_assoc
    · cases o <;> simp [answers]

end Prompt

namespace CommandLine

variable (depth : Nat) {arguments : List String} {o : Options} {files : String → Option ByteArray}

theorem respond_prompt (hread : Options.read arguments = .ok o) (hcontents : o.contents = none)
    (stdin : List UInt8) : respond depth arguments files stdin = Prompt.run depth stdin := by
  rw [respond, hread]
  dsimp only
  rw [hcontents]

theorem respond_file {path source : String} (hread : Options.read arguments = .ok o)
    (hfile : o.file = true) (hcontents : o.contents = some path)
    (hsource : files path = some source.toUTF8) (stdin : List UInt8) :
    respond depth arguments files stdin = execute depth o source := by
  have hdecode : String.fromUTF8? source.toUTF8 = some source := decodeText_textBytes source
  rw [respond, hread]
  dsimp only
  rw [hcontents]
  dsimp only
  rw [script, if_pos hfile, hsource, Option.bind_some, hdecode]

/-- A session shows the mark, then for each line what it shows and the mark again, and then a line
end. At the first line that is no text it stops, whatever comes later. A line that is not blank
shows what a script of the same text writes in pipe mode. -/
theorem prompt_transcript (files : String → Option ByteArray)
    (hread : Options.read arguments = .ok o) (hcontents : o.contents = none)
    {sources : List String} (hsources : ∀ s ∈ sources, Unbroken s) :
    respond depth arguments files (sources.flatMap typed) =
        (Prompt.shown depth sources).map
          (fun xs => ⟨0, Prompt.transcript xs ++ "\n", ""⟩) ∧
      (∀ bytes rest, decodeText bytes = none → 10 ∉ bytes → rest = [] ∨ rest.head? = some 10 →
        respond depth arguments files (sources.flatMap typed ++ (bytes ++ rest)) =
          (Prompt.shown depth sources).map
            fun xs => ⟨1, Prompt.transcript xs, Prompt.invalidText⟩) ∧
      ∀ source, sources = [source] → isBlankText source = false →
        ∀ arguments' path stdin,
          Options.read arguments' = .ok ⟨true, true, false, some path⟩ →
          files path = some source.toUTF8 →
          Prompt.shown depth sources =
            (respond depth arguments' files stdin).map fun r => [r.stdout ++ r.stderr] := by
  refine ⟨?_, ?_, ?_⟩
  · rw [respond_prompt depth hread hcontents]
    exact Prompt.run_typed_all depth hsources
  · intro bytes rest hbytes hline hrest
    rw [respond_prompt depth hread hcontents]
    exact Prompt.run_typed_undecodable depth hsources hbytes hline hrest
  · rintro source rfl hblank arguments' path stdin hread' hsource
    rw [respond_file depth hread' rfl rfl hsource]
    exact Prompt.shown_one depth hblank rfl rfl

/-- A binding from a line with an error stays for the next one, and bytes that are no text end the
session in sight of another line. -/
theorem prompt_transcript_error :
    let sources := ["let a = 5; puts(a); a + true", " ", "a"]
    let xs := ["5\ntype mismatch: INTEGER + BOOLEAN\n", "", "5\n"]
    let files (path : String) := if path = "script" then some "puts(7); 8".toUTF8 else none
    Options.read [] = .ok .empty ∧ (∀ s ∈ sources, Unbroken s) ∧
      Prompt.shown 9 sources = some xs ∧
      respond 9 [] files (sources.flatMap typed) = some ⟨0, Prompt.transcript xs ++ "\n", ""⟩ ∧
      respond 9 [] files (sources.flatMap typed ++ ([255] ++ [10, 49, 10])) =
        some ⟨1, Prompt.transcript xs, Prompt.invalidText⟩ ∧
      Prompt.shown 9 ["puts(7); 8"] = some ["7\n8\n"] ∧
      Prompt.shown 9 ["puts(7); 8"] =
        (respond 9 ["-pf", "script"] files []).map fun r => [r.stdout ++ r.stderr] := by
  intro sources xs files
  have hsources : ∀ s ∈ sources, Unbroken s := by
    simp only [sources, Unbroken]
    decide +kernel
  have hscript : ∀ s ∈ ["puts(7); 8"], Unbroken s := by
    simp only [Unbroken]
    decide +kernel
  have hshown : Prompt.shown 9 sources = some xs := by decide +kernel
  have hread : Options.read ["-pf", "script"] = .ok ⟨true, true, false, some "script"⟩ := rfl
  have hempty : Options.read [] = .ok .empty := rfl
  obtain ⟨hall, hundecodable, -⟩ := prompt_transcript 9 files hempty rfl hsources
  obtain ⟨-, -, hone⟩ := prompt_transcript 9 files hempty rfl hscript
  rw [hshown] at hall hundecodable
  have hinvalid : decodeText [255] = none := by decide +kernel
  exact ⟨hempty, hsources, hshown, hall,
    hundecodable [255] [10, 49, 10] hinvalid (by decide) (.inr rfl), by decide +kernel,
    hone _ rfl (by decide +kernel) _ _ [] hread rfl⟩

end CommandLine

end Treewalk
