import Diversity.Schemes.Scans
import Diversity.Programs.Rocks.CommandLine

/-! @src rocksdb_playground/src/main.c (stripwhite, execute_line, find_command) |
    name:A line is cut up in place | scheme:scans | family:shell

    The line that `readline` returns is a buffer that ends with its NUL, and both functions work in it:
    `stripwhite` looks for the last character from the end and puts a NUL behind it, `execute_line` puts
    one over the blank behind the command word and goes on behind it.

        ␣ ␣ w r i t e ␣ ␣ k ␣ v ␣ 0        the line
            w r i t e ␣ ␣ k ␣ v 0 0        stripwhite
            w r i t e 0 ␣ k ␣ v 0 0        execute_line, word and argument

    The buffer of the model has no cell behind that NUL, so a run without a fault has not left it. What
    comes of a line is what `Rocks.stripwhite` and `Rocks.executeLine` say of its characters. -/

namespace Diversity.Rocks.InPlace
open Schemes KeyValue

/-- The string that a pointer to cell `i` is the start of. -/
def stringAt (mem : Bytes) (i : ℤ) : C Bytes := cString (mem.drop i.toNat)

/-- `stripwhite` on a pointer to the start of the buffer: the buffer, and the pointer returned. -/
def stripwhite (fuel : ℕ) (string : Bytes) : C (Bytes × ℤ) := do
  let s ← loop (scanBody whitespace string) fuel 0
  let c ← load string s
  if c = 0 then .ok (string, s)
  else
    let text ← stringAt string s
    let t ← loop (scanBackBody whitespace string s) fuel (s + text.length - 1)
    let string ← store string (t + 1) 0
    .ok (string, s)

/-- The first part of `execute_line`, "Isolate the command word", on the cells from `line` on: the cells,
    `word` and `i`. -/
def isolateWord (fuel : ℕ) (line : Bytes) : C (Bytes × ℤ × ℤ) := do
  let word ← loop (scanBody (fun c => c ≠ 0 && whitespace c) line) fuel 0
  let i ← loop (scanBody (fun c => c ≠ 0 && ! whitespace c) line) fuel word
  let c ← load line i
  if c ≠ 0 then
    let line ← store line i 0
    .ok (line, word, i + 1)
  else .ok (line, word, i)

section Execute

variable {σ : Type} (call : Func → Bytes → σ → σ × ℤ) (complain : Bytes → σ → σ)

/-- `execute_line`: the cells, and what is returned. `call` is the call through `command->func`,
    `complain` the text on `stderr`. -/
def executeLine (fuel : ℕ) (line : Bytes) (st : σ) : C (Bytes × σ × ℤ) := do
  let (line, word, i) ← isolateWord fuel line
  let name ← stringAt line word
  match findCommand name with
  | none => .ok (line, complain name st, -1)
  | some command =>
    -- "Get argument to command, if any."
    let i ← loop (scanBody whitespace line) fuel i
    let arg ← stringAt line i
    .ok (line, call command.func arg st)

end Execute

/-- `t` starts with the word `w`, which the end of `t` or a blank follows; behind the blanks is `arg`. -/
structure Splits (t w arg : Bytes) : Prop where
  nonempty : w ≠ []
  noBlank : ∀ c ∈ w, whitespace c = false
  parts : (t = w ∧ arg = []) ∨ ∃ blanks, blanks ≠ [] ∧ (∀ c ∈ blanks, whitespace c = true) ∧
    t = w ++ blanks ++ arg ∧ ∀ c ∈ arg.head?, whitespace c = false

/-- `t` is `s` without the blanks at its ends. -/
structure Strips (s t : Bytes) : Prop where
  parts : ∃ lead trail, s = lead ++ t ++ trail ∧ (∀ c ∈ lead, whitespace c = true) ∧
    ∀ c ∈ trail, whitespace c = true
  head : ∀ c ∈ t.head?, whitespace c = false
  last : ∀ c ∈ t.getLast?, whitespace c = false

/-! ### Blanks at the ends -/

theorem whitespace_zero : whitespace 0 = false := rfl

theorem stringAt_append {pre s post : Bytes} {i : ℤ} (hi : i = pre.length) (hs : (0 : UInt8) ∉ s) :
    stringAt (pre ++ (s ++ 0 :: post)) i = .ok s := by
  have htoNat : i.toNat = pre.length := by omega
  rw [stringAt, htoNat, List.drop_left]
  exact cString_append fun c hc h => hs (h ▸ hc)

/-- A line is blank, or it has a first and a last character between blanks. -/
theorem stripwhite_cases (s : Bytes) : ((∀ c ∈ s, whitespace c = true) ∧ Rocks.stripwhite s = []) ∨
    ∃ lead c mid trail, s = lead ++ (c :: mid) ++ trail ∧ (∀ x ∈ lead, whitespace x = true) ∧
      (∀ x ∈ trail, whitespace x = true) ∧ whitespace c = false ∧
      (∀ h : mid ≠ [], whitespace (mid.getLast h) = false) ∧ Rocks.stripwhite s = c :: mid := by
  have hhead := List.head?_dropWhile_not whitespace s
  have hsplit : s.takeWhile whitespace ++ s.dropWhile whitespace = s := List.takeWhile_append_dropWhile
  rcases hdrop : s.dropWhile whitespace with - | ⟨c, rest⟩
  · left
    rw [Rocks.stripwhite, hdrop]
    exact ⟨List.dropWhile_eq_nil_iff.mp hdrop, rfl⟩
  · right
    rw [hdrop] at hhead hsplit
    refine ⟨s.takeWhile whitespace, c, rest.rdropWhile whitespace, rest.rtakeWhile whitespace, ?_,
      fun x hx => List.mem_takeWhile_imp hx, fun x hx => List.mem_rtakeWhile_imp hx,
      by simpa using hhead, fun h => ?_, ?_⟩
    · rw [List.append_assoc, List.cons_append, List.rdropWhile_append_rtakeWhile, hsplit]
    · exact Bool.eq_false_iff.mpr (List.rdropWhile_last_not _ _ h)
    · rw [Rocks.stripwhite, hdrop]

theorem strips_stripwhite (s : Bytes) : Strips s (Rocks.stripwhite s) := by
  rcases stripwhite_cases s with ⟨hblank, ht⟩ | ⟨lead, c, mid, trail, hs, hlead, htrail, hc, hmid, ht⟩
  · rw [ht]
    exact ⟨⟨s, [], by simp, hblank, by simp⟩, by simp, by simp⟩
  · rw [ht]
    refine ⟨⟨lead, trail, hs, hlead, htrail⟩, by simpa using hc, ?_⟩
    intro x hx
    rcases List.eq_nil_or_concat' mid with rfl | ⟨mid, y, rfl⟩
    · simp only [List.getLast?_singleton, Option.mem_def, Option.some.injEq] at hx
      rwa [← hx]
    · have hy := hmid (by simp)
      rw [List.getLast_append_singleton] at hy
      rw [← List.cons_append, List.getLast?_concat] at hx
      rwa [← Option.some.inj hx]

/-- A blank line: the pointer goes to its NUL. -/
theorem stripwhite_blank {s : Bytes} (hs : ∀ c ∈ s, whitespace c = true) {fuel : ℕ}
    (hfuel : s.length < fuel) : stripwhite fuel (s ++ [0]) = .ok (s ++ [0], (s.length : ℤ)) := by
  have hscan := loop_scan whitespace_zero s [] (a := s ++ [0]) rfl hs (i := 0) rfl hfuel
  rw [stripwhite, hscan, ok_bind, load_append (by simp), ok_bind, if_pos rfl, zero_add]

/-- A line with text: the NUL goes over the first blank behind the text, or over the NUL of the line. -/
theorem stripwhite_text {lead mid trail : Bytes} {c : UInt8} (hlead : ∀ x ∈ lead, whitespace x = true)
    (htrail : ∀ x ∈ trail, whitespace x = true) (hc : whitespace c = false)
    (hmid : ∀ h : mid ≠ [], whitespace (mid.getLast h) = false)
    (hs : (0 : UInt8) ∉ lead ++ (c :: mid) ++ trail) {fuel : ℕ}
    (hfuel : (lead ++ (c :: mid) ++ trail).length < fuel) :
    stripwhite fuel (lead ++ (c :: mid) ++ trail ++ [0]) =
      .ok (lead ++ ((c :: mid) ++ 0 :: (trail ++ [0]).tail), (lead.length : ℤ)) := by
  have hc0 : c ≠ 0 := by
    rintro rfl
    exact hs (by simp)
  have htext : (0 : UInt8) ∉ (c :: mid) ++ trail := by
    rw [List.append_assoc, List.mem_append] at hs
    exact fun h => hs (Or.inr h)
  have hbuf : lead ++ (c :: mid) ++ trail ++ [0] = lead ++ ((c :: mid) ++ trail ++ [0]) := by
    simp only [List.append_assoc]
  have hlen := hfuel
  rw [List.length_append, List.length_append] at hlen
  have hscan := loop_scan hc lead [] (a := lead ++ (c :: mid) ++ trail ++ [0]) hbuf hlead (i := 0) rfl
    (by omega : lead.length < fuel)
  rw [zero_add] at hscan
  have hload : load (lead ++ (c :: mid) ++ trail ++ [0]) lead.length = .ok c := by
    rw [hbuf]
    exact load_append rfl
  have hstring : stringAt (lead ++ (c :: mid) ++ trail ++ [0]) lead.length = .ok ((c :: mid) ++ trail) := by
    rw [hbuf]
    exact stringAt_append rfl htext
  have hback : loop (scanBackBody whitespace (lead ++ (c :: mid) ++ trail ++ [0]) lead.length) fuel
      (lead.length + ((c :: mid) ++ trail).length - 1) = .ok ((lead.length : ℤ) + mid.length) :=
    loop_scanBack hmid rfl trail rfl htrail (by rw [List.length_append, List.length_cons]; omega)
      (by omega)
  obtain ⟨x, post, hpost⟩ := List.exists_cons_of_ne_nil (show trail ++ [0] ≠ [] by simp)
  have hcell : lead ++ (c :: mid) ++ trail ++ [0] = (lead ++ (c :: mid)) ++ x :: post := by
    rw [List.append_assoc _ trail, hpost]
  have hstore : store (lead ++ (c :: mid) ++ trail ++ [0]) (lead.length + mid.length + 1) 0 =
      .ok (lead ++ (c :: mid) ++ 0 :: post) := by
    rw [hcell]
    exact store_append (by rw [List.length_append, List.length_cons]; omega) 0
  rw [stripwhite, hscan, ok_bind, hload, ok_bind, if_neg hc0, hstring, ok_bind, hback, ok_bind, hstore,
    ok_bind, hpost, List.append_assoc, List.tail_cons]

/-- RUN: `stripwhite` stays in the buffer, and points to what `Rocks.stripwhite` keeps; a NUL follows. -/
theorem stripwhite_eq {s : Bytes} (hs : (0 : UInt8) ∉ s) :
    ∃ pre post, ∀ fuel > s.length, stripwhite fuel (s ++ [0]) =
      .ok (pre ++ (Rocks.stripwhite s ++ 0 :: post), (pre.length : ℤ)) := by
  rcases stripwhite_cases s with ⟨hblank, ht⟩ | ⟨lead, c, mid, trail, rfl, hlead, htrail, hc, hmid, ht⟩
  · exact ⟨s, [], fun fuel hfuel => by rw [ht, stripwhite_blank hblank hfuel]; rfl⟩
  · exact ⟨lead, (trail ++ [0]).tail, fun fuel hfuel => by
      rw [ht, stripwhite_text hlead htrail hc hmid hs hfuel]⟩

/-! ### The command word -/

/-- The first scan of `isolateWord` goes over the blanks in front. -/
theorem scan_blanks (t post : Bytes) {fuel : ℕ} (hfuel : t.length < fuel) :
    loop (scanBody (fun c => c ≠ 0 && whitespace c) (t ++ 0 :: post)) fuel 0 =
      .ok ((t.takeWhile whitespace).length : ℤ) := by
  obtain ⟨stop, rest, hrest, hstop⟩ := exists_stop whitespace t 0 post
  have hcells : t ++ 0 :: post = [] ++ (t.takeWhile whitespace ++ stop :: rest) := by
    rw [← hrest, List.nil_append, ← List.append_assoc, List.takeWhile_append_dropWhile]
  have hrun : ∀ c ∈ t.takeWhile whitespace, (c ≠ 0 && whitespace c) = true := by
    intro c hc
    have hblank := List.mem_takeWhile_imp hc
    have hc0 : c ≠ 0 := by
      rintro rfl
      cases hblank
    simp [hc0, hblank]
  have hp : (stop ≠ 0 && whitespace stop) = false := by
    rcases hstop with rfl | h
    · rfl
    · simp [h]
  have hscan := loop_scan (p := fun c => c ≠ 0 && whitespace c) hp _ [] hcells hrun (i := 0) rfl
    ((List.takeWhile_sublist _).length_le.trans_lt hfuel)
  rwa [zero_add] at hscan

/-- The second one goes over a word `w` up to the blank or the NUL behind it. -/
theorem scan_letters {w tail : Bytes} (lead post : Bytes) (hw : ∀ c ∈ w, c ≠ 0 ∧ whitespace c = false)
    (htail : ∀ c ∈ tail.head?, whitespace c = true) {fuel : ℕ} (hfuel : w.length < fuel) :
    loop (scanBody (fun c => c ≠ 0 && ! whitespace c) (lead ++ (w ++ (tail ++ 0 :: post)))) fuel
      lead.length = .ok ((lead.length : ℤ) + w.length) := by
  have hrun : ∀ c ∈ w, (c ≠ 0 && ! whitespace c) = true := by
    intro c hc
    obtain ⟨hc0, hblank⟩ := hw c hc
    simp [hc0, hblank]
  obtain ⟨stop, rest, hcons, hp⟩ : ∃ stop rest, tail ++ 0 :: post = stop :: rest ∧
      (stop ≠ 0 && ! whitespace stop) = false := by
    rcases tail with - | ⟨b, tail⟩
    · exact ⟨0, post, rfl, rfl⟩
    · exact ⟨b, tail ++ 0 :: post, rfl, by simp [htail b rfl]⟩
  rw [hcons]
  exact loop_scan (p := fun c => c ≠ 0 && ! whitespace c) hp w lead rfl hrun rfl hfuel

/-- The two scans of `isolateWord`, over the parts that `splitLine` takes apart. -/
theorem scan_word {t : Bytes} (post : Bytes) (ht : (0 : UInt8) ∉ t) {fuel : ℕ} (hfuel : t.length < fuel) :
    ∃ lead tail, t = lead ++ (splitLine t).1 ++ tail ∧
      (splitLine t).2 = (tail.drop 1).dropWhile whitespace ∧
      (∀ c ∈ tail.head?, whitespace c = true) ∧
      loop (scanBody (fun c => c ≠ 0 && whitespace c) (t ++ 0 :: post)) fuel 0 =
        .ok (lead.length : ℤ) ∧
      loop (scanBody (fun c => c ≠ 0 && ! whitespace c) (t ++ 0 :: post)) fuel lead.length =
        .ok ((lead.length : ℤ) + (splitLine t).1.length) := by
  let u := t.dropWhile whitespace
  have hlead : t.takeWhile whitespace ++ u = t := List.takeWhile_append_dropWhile
  have hword : (splitLine t).1 ++ u.dropWhile (! whitespace ·) = u := List.takeWhile_append_dropWhile
  have hparts : t = t.takeWhile whitespace ++ ((splitLine t).1 ++ u.dropWhile (! whitespace ·)) := by
    rw [hword, hlead]
  have htail : ∀ c ∈ (u.dropWhile (! whitespace ·)).head?, whitespace c = true := by
    intro c hc
    have hhead := List.head?_dropWhile_not (! whitespace ·) u
    rw [Option.mem_def.mp hc] at hhead
    simpa using hhead
  have hw : ∀ c ∈ (splitLine t).1, c ≠ 0 ∧ whitespace c = false := by
    intro c hc
    refine ⟨?_, by simpa using List.mem_takeWhile_imp hc⟩
    rintro rfl
    exact ht ((List.dropWhile_sublist _).subset ((List.takeWhile_sublist _).subset hc))
  have hshort : (splitLine t).1.length < fuel := by
    have hlen := congrArg List.length hparts
    rw [List.length_append, List.length_append] at hlen
    omega
  refine ⟨t.takeWhile whitespace, u.dropWhile (! whitespace ·), ?_, rfl, htail,
    scan_blanks t post hfuel, ?_⟩
  · rw [List.append_assoc]
    exact hparts
  · have hscan := scan_letters (t.takeWhile whitespace) post hw htail hshort
    rwa [← List.append_assoc (splitLine t).1, ← List.append_assoc, ← hparts] at hscan

/-- RUN: the command word is cut off in place; `i` is at the cells behind it, and the argument of
    `splitLine` is what is there behind blanks. -/
theorem isolateWord_eq {t : Bytes} (post : Bytes) (ht : (0 : UInt8) ∉ t) {fuel : ℕ} (hfuel : t.length < fuel) :
    ∃ pre more line word, isolateWord fuel (t ++ 0 :: post) = .ok (line, word, (pre.length : ℤ)) ∧
      stringAt line word = .ok (splitLine t).1 ∧ line = pre ++ (more ++ 0 :: post) ∧
      more.dropWhile whitespace = (splitLine t).2 ∧ more.length ≤ t.length ∧ (0 : UInt8) ∉ more := by
  obtain ⟨lead, tail, hsplit, harg, hblank, hscan, hscan'⟩ := scan_word post ht hfuel
  set w := (splitLine t).1 with hw
  have hnul : (0 : UInt8) ∉ w := by
    intro h
    rw [hsplit] at ht
    exact ht (by simp [h])
  rw [isolateWord, hscan, ok_bind, hscan', ok_bind]
  rcases tail with - | ⟨b, more⟩
  · have hline : t ++ 0 :: post = (lead ++ w) ++ 0 :: post := by rw [hsplit, List.append_nil]
    refine ⟨lead ++ w, [], (lead ++ w) ++ 0 :: post, lead.length, ?_, ?_, rfl, harg.symm, by simp, by simp⟩
    · rw [hline, load_append (by rw [List.length_append]; push_cast; rfl), ok_bind, if_neg (by simp),
        List.length_append]
      push_cast
      rfl
    · rw [List.append_assoc]
      exact stringAt_append rfl hnul
  · have hline : t ++ 0 :: post = (lead ++ w) ++ b :: (more ++ 0 :: post) := by
      rw [hsplit, List.append_assoc, List.cons_append]
    have hb0 : b ≠ 0 := by
      rintro rfl
      exact absurd (hblank 0 rfl) (by decide)
    refine ⟨lead ++ w ++ [0], more, (lead ++ w) ++ 0 :: (more ++ 0 :: post), lead.length, ?_, ?_, ?_,
      harg.symm, ?_, ?_⟩
    · rw [hline, load_append (by rw [List.length_append]; push_cast; rfl), ok_bind, if_pos hb0,
        store_append (by rw [List.length_append]; push_cast; rfl), ok_bind, List.length_append,
        List.length_append]
      push_cast
      rfl
    · rw [List.append_assoc]
      exact stringAt_append rfl hnul
    · simp
    · have hlen := congrArg List.length hsplit
      rw [List.length_append, List.length_cons] at hlen
      omega
    · intro h
      rw [hsplit] at ht
      exact ht (by simp [h])

/-- RUN: `execute_line` stays in the buffer and acts on the two parts that `splitLine` gives. -/
theorem executeLine_eq {σ : Type} (call : Func → Bytes → σ → σ × ℤ) (complain : Bytes → σ → σ)
    {t : Bytes} (ht : (0 : UInt8) ∉ t) (post : Bytes) {fuel : ℕ} (hfuel : t.length < fuel) (st : σ) :
    ∃ line, executeLine call complain fuel (t ++ 0 :: post) st = .ok (line,
      match findCommand (splitLine t).1 with
      | none => (complain (splitLine t).1 st, -1)
      | some command => call command.func (splitLine t).2 st) := by
  obtain ⟨pre, more, line, word, hrun, hname, hline, hmore, hlen, hnul⟩ :=
    isolateWord_eq post ht hfuel
  refine ⟨line, ?_⟩
  rw [executeLine, hrun, ok_bind]
  simp only [hname, ok_bind]
  cases findCommand (splitLine t).1 with
  | none => rfl
  | some command =>
    obtain ⟨stop, rest, hrest, hstop⟩ := exists_stop whitespace more 0 post
    have hblank : whitespace stop = false := by
      rcases hstop with rfl | h
      · exact whitespace_zero
      · exact h
    have hcells : line = pre ++ (more.takeWhile whitespace ++ stop :: rest) := by
      rw [hline, ← hrest, ← List.append_assoc (more.takeWhile whitespace),
        List.takeWhile_append_dropWhile]
    have hshort : (more.takeWhile whitespace).length < fuel :=
      ((List.takeWhile_sublist _).length_le.trans hlen).trans_lt hfuel
    have hscan := loop_scan hblank _ pre hcells (fun x hx => List.mem_takeWhile_imp hx) rfl hshort
    have harg : stringAt line (pre.length + (more.takeWhile whitespace).length) =
        .ok (splitLine t).2 := by
      have hnul' : (0 : UInt8) ∉ more.dropWhile whitespace :=
        fun h => hnul ((List.dropWhile_sublist _).subset h)
      rw [hcells, ← hrest, ← List.append_assoc, ← hmore]
      exact stringAt_append (by rw [List.length_append]; push_cast; rfl) hnul'
    simp only [hscan, ok_bind, harg]

/-- REFINE: on a line of the shell the code in place does what `Rocks.executeLine` says. -/
theorem executeLine_refines {t : Bytes} (ht : (0 : UInt8) ∉ t) (post : Bytes) {fuel : ℕ}
    (hfuel : t.length < fuel) (o : Outcome) (sh : Shell) :
    ∃ line, executeLine (fun func arg sh => func.run arg o sh)
        (fun word sh => sh.print .stderr (cText word ++ " No such command.\n")) fuel (t ++ 0 :: post) sh =
      .ok (line, Rocks.executeLine t o sh) := by
  obtain ⟨line, hrun⟩ := executeLine_eq (fun func arg sh => func.run arg o sh)
    (fun word (sh : Shell) => sh.print .stderr (cText word ++ " No such command.\n")) ht post hfuel sh
  exact ⟨line, hrun⟩

/-- The parts of a line that does not start with a blank. -/
theorem splitLine_splits {t : Bytes} (ht : t ≠ []) (hhead : ∀ c ∈ t.head?, whitespace c = false) :
    Splits t (splitLine t).1 (splitLine t).2 := by
  obtain ⟨c, u, rfl⟩ := List.exists_cons_of_ne_nil ht
  have hc : whitespace c = false := hhead c rfl
  have hskip : (c :: u).dropWhile whitespace = c :: u := List.dropWhile_cons_of_neg (by simp [hc])
  have hcut : (splitLine (c :: u)).1 ++ (c :: u).dropWhile (! whitespace ·) = c :: u := by
    simp only [splitLine, hskip]
    exact List.takeWhile_append_dropWhile
  have harg : (splitLine (c :: u)).2 =
      (((c :: u).dropWhile (! whitespace ·)).drop 1).dropWhile whitespace := by
    simp only [splitLine, hskip]
  refine ⟨?_, ?_, ?_⟩
  · simp only [splitLine, hskip]
    rw [List.takeWhile_cons_of_pos (by simp [hc])]
    exact List.cons_ne_nil _ _
  · intro x hx
    simp only [splitLine, hskip] at hx
    simpa using List.mem_takeWhile_imp hx
  · have hstop := List.head?_dropWhile_not (! whitespace ·) (c :: u)
    rcases htail : (c :: u).dropWhile (! whitespace ·) with - | ⟨b, more⟩
    · rw [htail] at hcut harg
      rw [List.append_nil] at hcut
      exact Or.inl ⟨hcut.symm, harg⟩
    · rw [htail] at hcut harg hstop
      have hb : whitespace b = true := by simpa using hstop
      refine Or.inr ⟨b :: more.takeWhile whitespace, List.cons_ne_nil _ _, ?_, ?_, ?_⟩
      · intro x hx
        rcases List.mem_cons.mp hx with rfl | hx
        · exact hb
        · exact List.mem_takeWhile_imp hx
      · rw [harg, List.drop_one, List.tail_cons, List.append_assoc, List.cons_append,
          List.takeWhile_append_dropWhile, hcut]
      · intro x hx
        have hnext := List.head?_dropWhile_not whitespace more
        rw [harg, List.drop_one, List.tail_cons] at hx
        rw [Option.mem_def.mp hx] at hnext
        simpa using hnext

/-- The names in the table are different, so an entry is found by its name. -/
theorem findCommand_name {command : COMMAND} (h : command ∈ commands) :
    findCommand (ascii command.name) = some command := by
  have hall : ∀ c ∈ commands, findCommand (ascii c.name) = some c := by
    simp only [commands, List.forall_mem_cons]
    exact ⟨rfl, rfl, rfl, rfl, rfl, rfl, rfl, rfl, rfl, rfl, rfl, rfl, rfl, by simp⟩
  exact hall command h

theorem findCommand_none {name : Bytes} (h : ∀ command ∈ commands, name ≠ ascii command.name) :
    findCommand name = none := by
  rw [findCommand, List.find?_eq_none]
  intro command hc
  simpa using h command hc

/-- CORRECT: for every line, in a buffer that ends with the NUL of the line, `stripwhite` gives the line
    without the blanks at its ends; if that is not empty, `execute_line` looks up its first word and
    calls the function of that name with the rest behind the blanks, or calls nothing and returns -1.
    Neither leaves the buffer. -/
theorem commandLine_splits (s : Bytes) (hs : (0 : UInt8) ∉ s) :
    ∃ (mem : Bytes) (p : ℕ) (t : Bytes),
      (∀ fuel > s.length, stripwhite fuel (s ++ [0]) = .ok (mem, (p : ℤ))) ∧
      stringAt mem p = .ok t ∧ Strips s t ∧
      (t ≠ [] → ∃ w arg, Splits t w arg ∧
        ∀ (σ : Type) (call : Func → Bytes → σ → σ × ℤ) (complain : Bytes → σ → σ) (st : σ),
          ∀ fuel > s.length,
            (∀ command ∈ commands, w = ascii command.name → ∃ mem',
              executeLine call complain fuel (mem.drop p) st = .ok (mem', call command.func arg st)) ∧
            ((∀ command ∈ commands, w ≠ ascii command.name) → ∃ mem',
              executeLine call complain fuel (mem.drop p) st = .ok (mem', complain w st, -1))) := by
  have hstrips := strips_stripwhite s
  have hnul : (0 : UInt8) ∉ Rocks.stripwhite s := by
    obtain ⟨lead, trail, hparts, -, -⟩ := hstrips.parts
    intro h
    rw [hparts] at hs
    exact hs (by simp [h])
  have hlen : (Rocks.stripwhite s).length ≤ s.length := by
    obtain ⟨lead, trail, hparts, -, -⟩ := hstrips.parts
    have h := congrArg List.length hparts
    rw [List.length_append, List.length_append] at h
    omega
  obtain ⟨pre, post, hrun⟩ := stripwhite_eq hs
  refine ⟨_, pre.length, Rocks.stripwhite s, hrun, stringAt_append rfl hnul, hstrips, fun hne => ?_⟩
  refine ⟨_, _, splitLine_splits hne hstrips.head, fun σ call complain st fuel hfuel => ?_⟩
  rw [List.drop_left]
  obtain ⟨line, hexec⟩ := executeLine_eq call complain hnul post (hlen.trans_lt hfuel) st
  refine ⟨fun command hc hw => ⟨line, ?_⟩, fun hw => ⟨line, ?_⟩⟩
  · rw [hexec]
    simp only [hw, findCommand_name hc]
  · rw [hexec]
    simp only [findCommand_none hw]

/-- `␣write␣␣k␣v␣` with a tab: the word is `write`, the argument `k v`. -/
theorem commandLine_splits_write :
    ∃ (mem : Bytes) (p : ℕ) (t : Bytes),
      (∀ fuel > 13, stripwhite fuel ([32, 119, 114, 105, 116, 101, 9, 32, 107, 32, 118, 32, 9] ++ [0]) =
        .ok (mem, (p : ℤ))) ∧
      stringAt mem p = .ok t ∧ Strips [32, 119, 114, 105, 116, 101, 9, 32, 107, 32, 118, 32, 9] t ∧
      (t ≠ [] → ∃ w arg, Splits t w arg ∧
        ∀ (σ : Type) (call : Func → Bytes → σ → σ × ℤ) (complain : Bytes → σ → σ) (st : σ),
          ∀ fuel > 13,
            (∀ command ∈ commands, w = ascii command.name → ∃ mem',
              executeLine call complain fuel (mem.drop p) st = .ok (mem', call command.func arg st)) ∧
            ((∀ command ∈ commands, w ≠ ascii command.name) → ∃ mem',
              executeLine call complain fuel (mem.drop p) st = .ok (mem', complain w st, -1))) :=
  commandLine_splits [32, 119, 114, 105, 116, 101, 9, 32, 107, 32, 118, 32, 9] (by decide)

end Diversity.Rocks.InPlace
