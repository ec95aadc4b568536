import Diversity.Programs.Rocks.Datastore
import Diversity.Schemes.Text

/-! @src rocksdb_playground/src/main.c | name:The command line of rocks | scheme:text | family:shell

    A line of the shell on its way to `datastore.c`: `stripwhite` takes the blanks off its ends,
    `execute_line` cuts off the command word and hands the rest to the command. `com_read` takes all of
    it for the key; `com_write` cuts it up again with `strtok`, and takes the second word for the value.

        write k v w     →  key k, value v          (w is dropped)
        read k          →  key k

    A line is modelled by its characters before the NUL; the NULs that the code writes into it end the
    words that are cut off. -/

namespace Diversity.Rocks
open Schemes KeyValue

/-- The session and `done`. -/
structure Shell where
  session : State
  done : Bool

/-- `whitespace` of readline. -/
def whitespace (c : UInt8) : Bool := c = 32 || c = 9

/-- `stripwhite`: the first character is kept, blanks behind it are dropped from the end. -/
def stripwhite (string : Bytes) : Bytes :=
  match string.dropWhile whitespace with
  | [] => []
  | c :: s => c :: s.rdropWhile whitespace

/-- The characters of a string constant. -/
def ascii (s : String) : Bytes := s.toList.map fun c => UInt8.ofNat c.toNat

/-- The functions in the table. -/
inductive Func where
  | comOpen | comWrite | comWbCreate | comWbDestroy | comRead | comDelete | comCheckpoint | comList
  | comHelp | comClose | comQuit
  deriving DecidableEq, Repr

/-- `COMMAND`. -/
structure COMMAND where
  name : String
  func : Func
  doc : String

/-- `commands`. -/
def commands : List COMMAND :=
  [⟨"open", .comOpen, "Open a database"⟩,
    ⟨"write", .comWrite, "Write a (key,value) pair"⟩,
    ⟨"wb_create", .comWbCreate, "Create a writebatch"⟩,
    ⟨"wb_destroy", .comWbDestroy, "Destroy the writebatch"⟩,
    ⟨"read", .comRead, "Read the value associated with a key"⟩,
    ⟨"delete", .comDelete, "Delete a key"⟩,
    ⟨"ckpt", .comCheckpoint, "Create a checkpoint"⟩,
    ⟨"list", .comList, "List all keys and values"⟩,
    ⟨"help", .comHelp, "Display this text"⟩,
    ⟨"?", .comHelp, "Synonym for `help'"⟩,
    ⟨"close", .comClose, "Close the opened database"⟩,
    ⟨"quit", .comQuit, "Quit using rocks"⟩,
    ⟨"exit", .comQuit, "Synonym for `quit'"⟩]

/-- `find_command`. -/
def findCommand (name : Bytes) : Option COMMAND := commands.find? fun c => name = ascii c.name

namespace Shell

def print (sh : Shell) (stream : Stream) (text : String) : Shell :=
  { sh with session := sh.session.print stream text }

/-- A function of `datastore.c`. -/
def call (sh : Shell) (f : State → State × ℤ) : Shell × ℤ :=
  let (session, ret) := f sh.session
  ({ sh with session }, ret)

end Shell

/-- A command that wants an argument: `invalid_argument`, then `f`. -/
def withArgument (caller : String) (arg : Bytes) (sh : Shell) (f : Shell → Shell × ℤ) : Shell × ℤ :=
  if arg = [] then (sh.print .stderr (caller ++ ": Argument required.\n"), -1) else f sh

/-- `com_write`, behind `invalid_argument`; the value is written with its NUL. -/
def comWrite (arg : Bytes) (o : Outcome) (sh : Shell) : Shell × ℤ :=
  match strtok 32 arg with
  | none => (sh.print .stderr "Key is empty\n", -1)
  | some (key, rest) =>
    match strtok 32 rest with
    | none => (sh.print .stderr "Value is empty\n", -1)
    | some (value, _) => sh.call (handleWrite key (value ++ [0]) o)

/-- One turn of the second loop of `com_help`, which prints in six columns. -/
def helpColumn (acc : Shell × ℕ) (c : COMMAND) : Shell × ℕ :=
  let (sh, printed) := acc
  let (sh, printed) := if printed = 6 then (sh.print .stdout "\n", 0) else (sh, printed)
  (sh.print .stdout (c.name ++ "\t"), printed + 1)

/-- `com_help`. -/
def comHelp (arg : Bytes) (sh : Shell) : Shell × ℤ :=
  let matching := commands.filter fun c => arg = [] || arg = ascii c.name
  let sh := matching.foldl (fun sh c => sh.print .stdout (c.name ++ "\t\t" ++ c.doc ++ ".\n")) sh
  if matching = [] then
    let sh := sh.print .stdout ("No commands match `" ++ cText arg ++ "'.  Possibilties are:\n")
    let (sh, printed) := commands.foldl helpColumn (sh, 0)
    (if printed = 0 then sh else sh.print .stdout "\n", 0)
  else (sh, 0)

/-- The function that a table entry points to. -/
def Func.run (arg : Bytes) (o : Outcome) (sh : Shell) : Func → Shell × ℤ
  | .comOpen => withArgument "open" arg sh (·.call (openDb arg o))
  | .comRead => withArgument "read" arg sh (·.call (handleRead arg o))
  | .comWrite => withArgument "write" arg sh (Rocks.comWrite arg o)
  | .comDelete => withArgument "delete" arg sh (·.call (handleDelete arg o))
  | .comCheckpoint => withArgument "checkpoint" arg sh (·.call (handleCheckpoint arg o))
  | .comHelp => Rocks.comHelp arg sh
  | .comList => sh.call (handleList o)
  | .comClose => sh.call closeDb
  | .comWbCreate => sh.call (createWritebatch o)
  | .comWbDestroy => sh.call (destroyWritebatch o)
  | .comQuit => ({ sh with done := true }, 0)

/-- The command word of a line, and the argument behind it. -/
def splitLine (line : Bytes) : Bytes × Bytes :=
  let line := line.dropWhile whitespace
  let word := line.takeWhile (! whitespace ·)
  -- `line[i++] = '\0'` uses up the blank behind the word, if there is one.
  let rest := (line.dropWhile (! whitespace ·)).drop 1
  (word, rest.dropWhile whitespace)

/-- `execute_line`. -/
def executeLine (line : Bytes) (o : Outcome) (sh : Shell) : Shell × ℤ :=
  let (word, arg) := splitLine line
  match findCommand word with
  | none => (sh.print .stderr (cText word ++ " No such command.\n"), -1)
  | some command => command.func.run arg o sh

/-- A line as `main` passes it on. -/
def runLine (line : Bytes) (o : Outcome) (sh : Shell) : Shell × ℤ := executeLine (stripwhite line) o sh

/-! ### Write and read -/

/-- A key that the command line can name: not empty, without blanks. -/
structure Key where
  bytes : Bytes
  nonempty : bytes ≠ []
  noBlank : ∀ c ∈ bytes, whitespace c = false
  noNul : (0 : UInt8) ∉ bytes

/-- A value that neither starts nor ends with a blank. -/
structure Value where
  bytes : Bytes
  nonempty : bytes ≠ []
  noBlankHead : whitespace (bytes.head nonempty) = false
  noBlankLast : whitespace (bytes.getLast nonempty) = false
  noNul : (0 : UInt8) ∉ bytes

/-- `write k v`. -/
def writeLine (k : Key) (v : Value) : Bytes := ascii "write" ++ 32 :: (k.bytes ++ 32 :: v.bytes)

/-- `read k`. -/
def readLine (k : Key) : Bytes := ascii "read" ++ 32 :: k.bytes

/-- The characters of a string without NUL. -/
def plainText (b : Bytes) : String := String.ofList (b.map fun c => Char.ofNat c.toNat)

/-- What `read` prints for a value that was stored with its NUL. -/
def foundText (k v : Bytes) : String :=
  "Found value " ++ plainText v ++ ", vallen " ++ toString (v.length + 1) ++ " for key " ++
    plainText k ++ "\n"

/-- If the write returns 0, the read prints exactly `v` for `k`, and no other key of the database `h`
    has changed. -/
def WriteThenRead (h : ℕ) (k : Key) (v : Value) (o o' : Outcome) (sh : Shell) : Prop :=
  let (sh₁, ret) := runLine (writeLine k v) o sh
  let (sh₂, _) := runLine (readLine k) o' sh₁
  ret = 0 → sh₂.session.out = sh₁.session.out ++ [(.stdout, foundText k.bytes v.bytes)] ∧
    ∀ k', k' ≠ k.bytes → sh₂.session.data h k' = sh.session.data h k'

/-! ### Cutting up the line -/

theorem ne_space_of_not_whitespace {c : UInt8} (h : whitespace c = false) : c ≠ 32 := by
  rintro rfl
  cases h

/-- A line that neither starts nor ends with a blank is not changed. -/
theorem stripwhite_self {s : Bytes} {c : UInt8} (hc : whitespace c = false)
    (hlast : whitespace ((c :: s).getLast (List.cons_ne_nil c s)) = false) :
    stripwhite (c :: s) = c :: s := by
  have hdrop : (c :: s).dropWhile whitespace = c :: s :=
    List.dropWhile_cons_of_neg (by simp [hc])
  have hkeep : s.rdropWhile whitespace = s := by
    rw [List.rdropWhile_eq_self_iff]
    intro hne
    rw [List.getLast_cons hne] at hlast
    simp [hlast]
  rw [stripwhite, hdrop]
  simp only [hkeep]

/-- The command word ends at the first blank. -/
theorem splitLine_append {word arg : Bytes} {c a : UInt8} (hword : ∀ x ∈ c :: word, whitespace x = false)
    (ha : whitespace a = false) : splitLine (c :: word ++ 32 :: (a :: arg)) = (c :: word, a :: arg) := by
  have hc : whitespace c = false := hword c List.mem_cons_self
  have hskip : (c :: word ++ 32 :: (a :: arg)).dropWhile whitespace = c :: word ++ 32 :: (a :: arg) :=
    List.dropWhile_cons_of_neg (by simp [hc])
  have hgo : ∀ x ∈ c :: word, (! whitespace x) = true := fun x hx => by rw [hword x hx]; rfl
  have hstop : (! whitespace 32) = false := rfl
  have hrest : (a :: arg).dropWhile whitespace = a :: arg := List.dropWhile_cons_of_neg (by simp [ha])
  simp only [splitLine, hskip]
  rw [takeWhile_append_stop hgo hstop, dropWhile_append_stop hgo hstop, List.drop_one, List.tail_cons,
    hrest]

theorem Key.exists_cons (k : Key) : ∃ c s, k.bytes = c :: s ∧ whitespace c = false := by
  obtain ⟨c, s, hs⟩ := List.exists_cons_of_ne_nil k.nonempty
  exact ⟨c, s, hs, k.noBlank c (by rw [hs]; exact List.mem_cons_self)⟩

theorem Value.exists_cons (v : Value) : ∃ c s, v.bytes = c :: s ∧ whitespace c = false := by
  obtain ⟨c, s, hs⟩ := List.exists_cons_of_ne_nil v.nonempty
  have hhead := v.noBlankHead
  simp only [hs, List.head_cons] at hhead
  exact ⟨c, s, hs, hhead⟩

/-- A command word, a space and an argument that has no blank at either end: the argument reaches the
    function of the command as it is. -/
theorem runLine_command {word arg : Bytes} {c a : UInt8} {command : COMMAND}
    (hword : ∀ x ∈ c :: word, whitespace x = false) (ha : whitespace a = false)
    (hlast : whitespace ((a :: arg).getLast (List.cons_ne_nil a arg)) = false)
    (hfind : findCommand (c :: word) = some command) (o : Outcome) (sh : Shell) :
    runLine (c :: word ++ 32 :: (a :: arg)) o sh = command.func.run (a :: arg) o sh := by
  have hend : whitespace ((c :: (word ++ 32 :: (a :: arg))).getLast (List.cons_ne_nil _ _)) = false := by
    rw [← hlast]
    simp [List.getLast_cons]
  have hstrip : stripwhite (c :: word ++ 32 :: (a :: arg)) = c :: word ++ 32 :: (a :: arg) :=
    stripwhite_self (hword c List.mem_cons_self) hend
  rw [runLine, hstrip, executeLine, splitLine_append hword ha]
  simp only [hfind]

/-- `write k v` reaches `com_write` as `k v`. -/
theorem runLine_write (k : Key) (v : Value) (o : Outcome) (sh : Shell) :
    runLine (writeLine k v) o sh = comWrite (k.bytes ++ 32 :: v.bytes) o sh := by
  obtain ⟨c, s, hk, hc⟩ := k.exists_cons
  have hline : writeLine k v = 119 :: [114, 105, 116, 101] ++ 32 :: (c :: (s ++ 32 :: v.bytes)) := by
    rw [writeLine, hk]
    rfl
  have hword : ∀ x ∈ (119 :: [114, 105, 116, 101] : Bytes), whitespace x = false := by
    simp [whitespace]
  have hlast : whitespace ((c :: (s ++ 32 :: v.bytes)).getLast (List.cons_ne_nil _ _)) = false := by
    rw [← v.noBlankLast]
    simp [List.getLast_cons, v.nonempty]
  have hfind : findCommand (119 :: [114, 105, 116, 101]) =
      some ⟨"write", .comWrite, "Write a (key,value) pair"⟩ := rfl
  rw [hline, runLine_command hword hc hlast hfind, hk]
  rfl

/-- `read k` reaches `handle_read` as `k`. -/
theorem runLine_read (k : Key) (o : Outcome) (sh : Shell) :
    runLine (readLine k) o sh = sh.call (handleRead k.bytes o) := by
  obtain ⟨c, s, hk, hc⟩ := k.exists_cons
  have hline : readLine k = 114 :: [101, 97, 100] ++ 32 :: (c :: s) := by
    rw [readLine, hk]
    rfl
  have hword : ∀ x ∈ (114 :: [101, 97, 100] : Bytes), whitespace x = false := by
    simp [whitespace]
  have hlast : whitespace ((c :: s).getLast (List.cons_ne_nil c s)) = false := by
    refine k.noBlank _ ?_
    rw [hk]
    exact List.getLast_mem _
  have hfind : findCommand (114 :: [101, 97, 100]) =
      some ⟨"read", .comRead, "Read the value associated with a key"⟩ := rfl
  rw [hline, runLine_command hword hc hlast hfind, hk]
  rfl

/-- The value is the first word of `v`. -/
theorem comWrite_firstWord (k : Key) {c : UInt8} {w t : Bytes} (hw : ∀ x ∈ c :: w, x ≠ 32)
    (ht : t = [] ∨ t.head? = some 32) (o : Outcome) (sh : Shell) :
    comWrite (k.bytes ++ 32 :: (c :: w ++ t)) o sh =
      sh.call (handleWrite k.bytes (c :: w ++ [0]) o) := by
  obtain ⟨a, s, hk, -⟩ := k.exists_cons
  have hkey : ∀ x ∈ a :: s, x ≠ 32 := fun x hx =>
    ne_space_of_not_whitespace (k.noBlank x (by rw [hk]; exact hx))
  have hvalue : ∃ rest, strtok 32 (c :: w ++ t) = some (c :: w, rest) := by
    rcases ht with rfl | ht
    · exact ⟨[], by rw [List.append_nil, strtok_last hw]⟩
    · obtain ⟨rest, rfl⟩ : ∃ rest, t = 32 :: rest := by
        cases t with
        | nil => cases ht
        | cons x rest => exact ⟨rest, by rw [Option.some.inj ht]⟩
      exact ⟨rest, strtok_append hw⟩
  obtain ⟨rest, hrest⟩ := hvalue
  rw [comWrite, hk, strtok_append hkey]
  simp only [hrest]

/-! ### Through the database -/

/-- The characters of a string up to its NUL. -/
theorem cText_append_nul {b : Bytes} (hb : (0 : UInt8) ∉ b) : cText (b ++ [0]) = plainText b := by
  have hall : ∀ x ∈ b, decide (x ≠ 0) = true := fun x hx =>
    decide_eq_true fun h => hb (h ▸ hx)
  rw [cText, takeWhile_append_stop hall (by simp), plainText]

theorem cText_plain {b : Bytes} (hb : (0 : UInt8) ∉ b) : cText b = plainText b := by
  have hall : ∀ x ∈ b, decide (x ≠ 0) = true := fun x hx =>
    decide_eq_true fun h => hb (h ▸ hx)
  rw [cText, List.takeWhile_eq_self_iff.mpr hall, plainText]

/-- A write without a batch puts the value into the open database. -/
theorem handleWrite_put {h : ℕ} {s : State} (hdb : s.db = some h) (hb : s.wrBatch = none)
    {o : Outcome} (ho : o.err = none) (key val : Bytes) :
    ∃ s', handleWrite key val o s = (s', 0) ∧ s'.db = some h ∧
      s'.data h = KeyValue.put (s.data h) key val := by
  have hopen : isOpen s = (s, true) := by simp [isOpen, hdb]
  refine ⟨(rocksdbPut s.db key val o s).print .stdout
    ("Write <" ++ cText key ++ "," ++ cText val ++ "> OK\n"), ?_, ?_, ?_⟩
  · simp only [handleWrite, hopen, hb, ho]
  · simp [rocksdbPut, hdb]
  · simp [rocksdbPut, rocksdbUpdate, ho, hdb, State.update]

/-- A read prints what the open database holds. -/
theorem handleRead_found {h : ℕ} {s : State} (hdb : s.db = some h) {o : Outcome} (ho : o.err = none)
    {key val : Bytes} (hval : s.data h key = some val) :
    (handleRead key o s).1.data = s.data ∧
      (handleRead key o s).1.out = s.out ++ [(.stdout, "Found value " ++ cText val ++ ", vallen " ++
        toString val.length ++ " for key " ++ cText key ++ "\n")] := by
  have hopen : isOpen s = (s, true) := by simp [isOpen, hdb]
  have hget : rocksdbGet s.db key o s = (s.call (.get s.db key), some val) := by
    simp [rocksdbGet, ho, hdb, hval]
  simp only [handleRead, hopen, hget, ho]
  exact ⟨rfl, rfl⟩

/-- STEP: whatever word `w` the write stores for `k`, the read prints it, and the write has put nothing
    else. -/
theorem read_after_write {h : ℕ} {sh : Shell} (hdb : sh.session.db = some h)
    (hb : sh.session.wrBatch = none) {o o' : Outcome} (ho : o.err = none) (ho' : o'.err = none)
    (k : Key) {w : Bytes} (hw : (0 : UInt8) ∉ w) :
    ∃ sh₁, sh.call (handleWrite k.bytes (w ++ [0]) o) = (sh₁, 0) ∧
      (sh₁.call (handleRead k.bytes o')).1.session.out =
        sh₁.session.out ++ [(.stdout, foundText k.bytes w)] ∧
      ∀ k', k' ≠ k.bytes →
        (sh₁.call (handleRead k.bytes o')).1.session.data h k' = sh.session.data h k' := by
  obtain ⟨s', hwrite, hdb', hdata⟩ := handleWrite_put hdb hb ho k.bytes (w ++ [0])
  have hstored : s'.data h k.bytes = some (w ++ [0]) := by
    rw [hdata, KeyValue.put, Function.update_self]
  obtain ⟨hsame, hout⟩ := handleRead_found hdb' ho' hstored
  refine ⟨{ sh with session := s' }, by simp only [Shell.call, hwrite], ?_, ?_⟩
  · have hlen : (w ++ [0]).length = w.length + 1 := List.length_append
    simp only [Shell.call]
    rw [hout, hlen, cText_append_nul hw, cText_plain k.noNul]
    rfl
  · intro k' hk'
    simp only [Shell.call]
    rw [hsame, hdata, KeyValue.put, Function.update_of_ne hk']

/-- A value is its first word, and then ends or goes on with a space. -/
theorem Value.exists_firstWord (v : Value) : ∃ c w t, v.bytes = c :: w ++ t ∧
    (∀ x ∈ c :: w, x ≠ 32) ∧ (t = [] ∨ t.head? = some 32) := by
  obtain ⟨c, s, hs, hc⟩ := v.exists_cons
  refine ⟨c, s.takeWhile (· ≠ 32), s.dropWhile (· ≠ 32), ?_, ?_, ?_⟩
  · rw [hs, List.cons_append, List.takeWhile_append_dropWhile]
  · intro x hx
    rcases List.mem_cons.mp hx with rfl | hx
    · exact ne_space_of_not_whitespace hc
    · have hne := List.mem_takeWhile_imp hx
      exact of_decide_eq_true hne
  · have hx := List.head?_dropWhile_not (fun c : UInt8 => decide (c ≠ 32)) s
    rcases hd : s.dropWhile (· ≠ 32) with _ | ⟨x, t⟩
    · exact Or.inl hd
    · right
      rw [hd] at hx ⊢
      simpa using hx

theorem toList_around (a : String) (l : List Char) (b c d e f : String) :
    (a ++ String.ofList l ++ b ++ c ++ d ++ e ++ f).toList =
      a.toList ++ (l ++ (b.toList ++ (c ++ d ++ e ++ f).toList)) := by
  simp only [String.toList_append, String.toList_ofList, List.append_assoc]

/-- In the text a comma follows the value. -/
theorem foundText_toList (k v : Bytes) : ∃ rest, (foundText k v).toList =
    "Found value ".toList ++ (v.map (fun c => Char.ofNat c.toNat) ++ ',' :: rest) :=
  ⟨_, toList_around "Found value " (v.map fun c => Char.ofNat c.toNat) ", vallen "
    (toString (v.length + 1)) " for key " (plainText k) "\n"⟩

/-- So the text for a value is not the one for its first word. -/
theorem foundText_ne {k w t : Bytes} : foundText k w ≠ foundText k (w ++ 32 :: t) := by
  intro h
  obtain ⟨rest, hw⟩ := foundText_toList k w
  obtain ⟨rest', hv⟩ := foundText_toList k (w ++ 32 :: t)
  have htext := hw.symm.trans ((congrArg String.toList h).trans hv)
  have hcut := List.append_cancel_left htext
  rw [List.map_append, List.append_assoc] at hcut
  have hnext := List.append_cancel_left hcut
  exact absurd (List.cons.inj hnext).1 (by decide)

/-- With an open database, no batch and calls that succeed, `write k v` returns 0, and the read gives
    back `v` exactly when there is no space in it. -/
theorem write_read_round_trip (h : ℕ) (sh : Shell) (hdb : sh.session.db = some h)
    (hb : sh.session.wrBatch = none) (o o' : Outcome) (ho : o.err = none) (ho' : o'.err = none)
    (k : Key) (v : Value) :
    (runLine (writeLine k v) o sh).2 = 0 ∧ (WriteThenRead h k v o o' sh ↔ (32 : UInt8) ∉ v.bytes) := by
  obtain ⟨c, w, t, hv, hw, ht⟩ := v.exists_firstWord
  have hnul : (0 : UInt8) ∉ c :: w := by
    intro hmem
    refine v.noNul ?_
    rw [hv]
    exact List.mem_append_left t hmem
  obtain ⟨sh₁, hwrite, hout, hother⟩ := read_after_write hdb hb ho ho' k hnul
  have hline : runLine (writeLine k v) o sh = (sh₁, 0) := by
    rw [runLine_write, hv, comWrite_firstWord k hw ht, hwrite]
  refine ⟨by rw [hline], ?_⟩
  simp only [WriteThenRead, hline, runLine_read]
  constructor
  · intro hread hspace
    -- The space is not in the first word, so the value goes on behind it.
    have hmem : (32 : UInt8) ∈ t := by
      rw [hv, List.mem_append] at hspace
      exact hspace.resolve_left fun hmem => hw 32 hmem rfl
    obtain ⟨t', rfl⟩ : ∃ t', t = 32 :: t' := by
      rcases ht with rfl | ht
      · cases hmem
      · exact ⟨t.tail, (List.cons_head?_tail ht).symm⟩
    have htext := (hread trivial).1
    rw [hout, hv] at htext
    have heq := List.append_cancel_left htext
    simp only [List.cons.injEq, Prod.mk.injEq, true_and, and_true] at heq
    exact foundText_ne heq
  · intro hspace _
    have htail : t = [] := by
      rcases ht with rfl | ht
      · rfl
      · refine absurd ?_ hspace
        rw [hv]
        exact List.mem_append_right _ (List.mem_of_head? ht)
    refine ⟨?_, hother⟩
    rw [hout, hv, htail, List.append_nil]

/-- The shell with database 0 open, and nothing in it. -/
def openShell : Shell := ⟨{ State.initial with db := some 0, next := 1 }, false⟩

/-- The key `k`. -/
def keyK : Key :=
  { bytes := [107], nonempty := by simp, noBlank := by simp [whitespace], noNul := by simp }

/-- The value `a`, a tab, `b`. -/
def valueTab : Value :=
  { bytes := [97, 9, 98], nonempty := by simp, noBlankHead := rfl, noBlankLast := rfl,
    noNul := by simp }

/-- The value `a b`. -/
def valueSpace : Value :=
  { bytes := [97, 32, 98], nonempty := by simp, noBlankHead := rfl, noBlankLast := rfl,
    noNul := by simp }

/-- A tab inside the value is kept. -/
theorem write_read_round_trip_tab :
    WriteThenRead 0 keyK valueTab Outcome.success Outcome.success openShell :=
  (write_read_round_trip 0 openShell rfl rfl Outcome.success Outcome.success rfl rfl keyK valueTab).2.mpr
    (by simp [valueTab])

/-- `write k a b` returns 0, and `read k` then prints `a`. -/
theorem value_cut_at_space :
    (runLine (writeLine keyK valueSpace) .success openShell).2 = 0 ∧
      ((runLine (readLine keyK) .success
        (runLine (writeLine keyK valueSpace) .success openShell).1).1.session.out.map Prod.snd =
          ["Write <k,a> OK\n", "Found value a, vallen 2 for key k\n"]) ∧
      ¬ WriteThenRead 0 keyK valueSpace .success .success openShell := by
  refine ⟨by decide, by decide, ?_⟩
  intro h
  have htext := (h (by decide)).1
  revert htext
  decide

end Diversity.Rocks
