import Diversity.Schemes.KeyValue
import Diversity.Schemes.Handles

/-! @src rocksdb_playground/src/datastore.c | name:Rocks session | scheme:handles | family:store

    The session of the `rocks` shell: one global record with a database, a checkpoint object and a
    write batch, and the commands that use them. The calls into RocksDB are recorded in a trace with
    the handles they were given, so that what a command hands to the library can be told from what
    the library would have needed. How each call ends is an input (`Outcome`): the session is run
    against every success and failure of the library.

        rocks.db        set by open (NULL when it fails), reset by close
        rocks.cp        set by the first ckpt, never reset
        rocks.wr_batch  set by wb_create, reset by wb_destroy when its write succeeds -/

namespace Diversity.Rocks
open Schemes KeyValue

abbrev Bytes := List UInt8

/-- The text of a C string: the bytes before the first NUL. -/
def cText (b : Bytes) : String :=
  String.ofList ((b.takeWhile (· ≠ 0)).map fun c => Char.ofNat c.toNat)

/-- A `rocksdb_checkpoint_t`: the database it was created from. -/
structure Checkpoint where
  db : Option ℕ
  deriving DecidableEq, Repr

/-- A call of RocksDB, with the database it is given (`none` is NULL) or the object it returns. For
    `checkpointCreate` also what `rocks.db` is at that moment. -/
inductive Call where
  | open (path : Bytes) (result : Option ℕ)
  | close (db : Option ℕ)
  | get (db : Option ℕ) (key : Bytes)
  | put (db : Option ℕ) (key val : Bytes)
  | delete (db : Option ℕ) (key : Bytes)
  | write (db : Option ℕ) (batch : List (Bytes × Bytes))
  | createIterator (db : Option ℕ)
  | checkpointObjectCreate (db : Option ℕ)
  | checkpointCreate (cp : Option Checkpoint) (current : Option ℕ) (dir : Bytes)
  | checkpointObjectDestroy (cp : Option Checkpoint)
  deriving DecidableEq, Repr

/-- How RocksDB answers a command. `err` is what the call sets `*err` to, `objErr` the same for the
    creation of a checkpoint object, `null` says that the object a command creates (an iterator, a
    batch) came back NULL; `contents` is what a database holds when it is opened and `rows` what an
    iterator runs through. -/
structure Outcome where
  err : Option String
  objErr : Option String
  null : Bool
  contents : Store Bytes Bytes
  rows : List (Bytes × Bytes)

/-- Every call succeeds. -/
def Outcome.success : Outcome :=
  { err := none, objErr := none, null := false, contents := fun _ => none, rows := [] }

inductive Stream where
  | stdout | stderr
  deriving DecidableEq, Repr

/-- `struct rocksdb_params`, less the options. -/
structure Params where
  db : Option ℕ
  cp : Option Checkpoint
  wrBatch : Option (List (Bytes × Bytes))

/-- The session: the global record, and around it the databases by handle, the next handle that
    `rocksdb_open` returns, the calls made so far and what was printed. -/
structure State extends Params where
  data : ℕ → Store Bytes Bytes
  next : ℕ
  trace : List Call
  out : List (Stream × String)

/-- The start of the program: `rocks` is a global, all NULL. -/
def State.initial : State :=
  { db := none, cp := none, wrBatch := none, data := fun _ _ => none, next := 0, trace := [],
    out := [] }

namespace State

def print (s : State) (stream : Stream) (text : String) : State :=
  { s with out := s.out ++ [(stream, text)] }

def call (s : State) (c : Call) : State := { s with trace := s.trace ++ [c] }

/-- Change the contents of a database; a call on NULL changes none. -/
def update (s : State) (db : Option ℕ) (f : Store Bytes Bytes → Store Bytes Bytes) : State :=
  match db with
  | none => s
  | some h => { s with data := Function.update s.data h (f (s.data h)) }

end State

/-! ### The library -/

/-- `rocksdb_open`: a fresh handle, or NULL with `err` set. -/
def rocksdbOpen (path : Bytes) (o : Outcome) (s : State) : State × Option ℕ :=
  match o.err with
  | some _ => (s.call (.open path none), none)
  | none =>
    let s := s.call (.open path (some s.next))
    ({ s with next := s.next + 1, data := Function.update s.data s.next o.contents }, some s.next)

/-- A call that changes a database unless it sets `err`. -/
def rocksdbUpdate (c : Call) (db : Option ℕ) (f : Store Bytes Bytes → Store Bytes Bytes)
    (o : Outcome) (s : State) : State :=
  if o.err = none then (s.call c).update db f else s.call c

def rocksdbPut (db : Option ℕ) (key val : Bytes) : Outcome → State → State :=
  rocksdbUpdate (.put db key val) db (KeyValue.put · key val)

def rocksdbDelete (db : Option ℕ) (key : Bytes) : Outcome → State → State :=
  rocksdbUpdate (.delete db key) db (KeyValue.delete · key)

def rocksdbWrite (db : Option ℕ) (batch : List (Bytes × Bytes)) : Outcome → State → State :=
  rocksdbUpdate (.write db batch) db (commit batch)

/-- `rocksdb_get`: the value, NULL when there is none or `err` is set. -/
def rocksdbGet (db : Option ℕ) (key : Bytes) (o : Outcome) (s : State) : State × Option Bytes :=
  (s.call (.get db key), if o.err = none then db.bind fun h => s.data h key else none)

/-! ### `datastore.c` -/

/-- `create_checkpoint_object`. -/
def createCheckpointObject (o : Outcome) (s : State) : State × ℤ :=
  let s := s.call (.checkpointObjectCreate s.db)
  match o.objErr with
  | some err =>
    (State.print { s with cp := none } .stdout
      ("Cannot create checkpoint object: " ++ err ++ "\n"), -2)
  | none => ({ s with cp := some ⟨s.db⟩ }, 0)

/-- `is_open`. -/
def isOpen (s : State) : State × Bool :=
  if s.db = none then (s.print .stderr "DB is not openned\n", false) else (s, true)

/-- `open_db`. -/
def openDb (path : Bytes) (o : Outcome) (s : State) : State × ℤ :=
  let (s, db) := rocksdbOpen path o s
  let s := { s with db }
  match o.err with
  | some err => (s.print .stdout ("Cannot open DB: " ++ err ++ "\n"), -1)
  | none => (s, 0)

/-- `close_db`. -/
def closeDb (s : State) : State × ℤ :=
  match isOpen s with
  | (s, false) => (s, 0)
  | (s, true) =>
    let s := s.call (.close s.db)
    ({ s with db := none }, 0)

/-- `deconstruct`. -/
def deconstruct (s : State) : State × ℤ :=
  let s := if s.cp ≠ none then s.call (.checkpointObjectDestroy s.cp) else s
  let s := if s.db ≠ none then s.call (.close s.db) else s
  (s, 0)

/-- `handle_read`; `%s` prints the value up to its first NUL. Every value that `handle_write`
    stores has one, its last byte. A value without one, which only another program can have stored, is taken
    to end with its last byte; the C code reads on behind it there, and the text printed is then not the
    one of this model. -/
def handleRead (key : Bytes) (o : Outcome) (s : State) : State × ℤ :=
  match isOpen s with
  | (s, false) => (s, -1)
  | (s, true) =>
    let (s, val) := rocksdbGet s.db key o s
    match o.err, val with
    | some err, _ => (s.print .stdout ("Read Error: " ++ err ++ "\n"), -1)
    | none, none => (s.print .stdout ("Value was not found for key " ++ cText key ++ "\n"), 0)
    | none, some val =>
      (s.print .stdout ("Found value " ++ cText val ++ ", vallen " ++ toString val.length ++
        " for key " ++ cText key ++ "\n"), 0)

/-- `%-20s`. -/
def padded (text : String) : String := text ++ String.ofList (List.replicate (20 - text.length) ' ')

/-- `printf("%-20s | %-20s\n", key, value)`. -/
def rowText (key value : String) : String := padded key ++ " | " ++ padded value ++ "\n"

/-- `handle_list`; the copies of key and value end at their first NUL. -/
def handleList (o : Outcome) (s : State) : State × ℤ :=
  match isOpen s with
  | (s, false) => (s, -1)
  | (s, true) =>
    let s := s.call (.createIterator s.db)
    if o.null then (s.print .stderr "Create Iterator has an error\n", -1)
    else
      let s := s.print .stdout (rowText "Key" "Value")
      let s := s.print .stdout "------------------------------------------------\n"
      (o.rows.foldl (fun s row => s.print .stdout (rowText (cText row.1) (cText row.2))) s, 0)

/-- `handle_delete`. -/
def handleDelete (key : Bytes) (o : Outcome) (s : State) : State × ℤ :=
  match isOpen s with
  | (s, false) => (s, -1)
  | (s, true) =>
    let s := rocksdbDelete s.db key o s
    match o.err with
    | some err => (s.print .stdout ("Delete Error: " ++ err ++ "\n"), -1)
    | none => (s.print .stdout ("Deleted key " ++ cText key ++ "\n"), 0)

/-- `handle_write`: into the batch if there is one, else into the database. -/
def handleWrite (key val : Bytes) (o : Outcome) (s : State) : State × ℤ :=
  match isOpen s with
  | (s, false) => (s, -1)
  | (s, true) =>
    match s.wrBatch with
    | some batch => ({ s with wrBatch := some (batch ++ [(key, val)]) }, 0)
    | none =>
      let s := rocksdbPut s.db key val o s
      match o.err with
      | some err => (s.print .stdout ("Write Error: " ++ err ++ "\n"), -1)
      | none => (s.print .stdout ("Write <" ++ cText key ++ "," ++ cText val ++ "> OK\n"), 0)

/-- `handle_checkpoint`. -/
def handleCheckpoint (dir : Bytes) (o : Outcome) (s : State) : State × ℤ :=
  match isOpen s with
  | (s, false) => (s, -1)
  | (s, true) =>
    let s := if s.cp = none then (createCheckpointObject o s).1 else s
    let s := s.call (.checkpointCreate s.cp s.db dir)
    match o.err with
    | some err => (s.print .stdout ("Checkpoint Error: " ++ err ++ "\n"), -1)
    | none => (s.print .stdout "Checkpoint OK\n", 0)

/-- `create_writebatch`: the old batch, if any, is dropped. -/
def createWritebatch (o : Outcome) (s : State) : State × ℤ :=
  if o.null then
    (State.print { s with wrBatch := none } .stderr "Create WriteBach had problems\n", -1)
  else ({ s with wrBatch := some [] }, 0)

/-- `destroy_writebatch`: there is no `is_open` here. -/
def destroyWritebatch (o : Outcome) (s : State) : State × ℤ :=
  match s.wrBatch, o.err with
  | some batch, some err =>
    ((rocksdbWrite s.db batch o s).print .stdout ("WriteBatch Error: " ++ err ++ "\n"), -1)
  | some batch, none => ({ rocksdbWrite s.db batch o s with wrBatch := none }, 0)
  | none, _ => ({ s with wrBatch := none }, 0)

/-! ### The commands -/

/-- The commands of the shell that reach `datastore.c`. -/
inductive Command where
  | open (path : Bytes)
  | close
  | read (key : Bytes)
  | write (key val : Bytes)
  | delete (key : Bytes)
  | list
  | wbCreate
  | wbDestroy
  | ckpt (dir : Bytes)
  deriving DecidableEq, Repr

def exec (o : Outcome) (s : State) : Command → State × ℤ
  | .open path => openDb path o s
  | .close => closeDb s
  | .read key => handleRead key o s
  | .write key val => handleWrite key val o s
  | .delete key => handleDelete key o s
  | .list => handleList o s
  | .wbCreate => createWritebatch o s
  | .wbDestroy => destroyWritebatch o s
  | .ckpt dir => handleCheckpoint dir o s

/-- A command and how the library answers it. -/
abbrev Step := Command × Outcome

def step (s : State) (t : Step) : State := (exec t.2 s t.1).1

/-- A run of the shell. -/
def run (s : State) (steps : List Step) : State := steps.foldl step s

/-! ### What a command does -/

@[simp] theorem State.print_toParams (s : State) (f : Stream) (t : String) :
    (s.print f t).toParams = s.toParams := rfl

@[simp] theorem State.print_data (s : State) (f : Stream) (t : String) :
    (s.print f t).data = s.data := rfl

@[simp] theorem State.print_next (s : State) (f : Stream) (t : String) :
    (s.print f t).next = s.next := rfl

@[simp] theorem State.print_trace (s : State) (f : Stream) (t : String) :
    (s.print f t).trace = s.trace := rfl

@[simp] theorem State.call_toParams (s : State) (c : Call) :
    (s.call c).toParams = s.toParams := rfl

@[simp] theorem State.call_data (s : State) (c : Call) : (s.call c).data = s.data := rfl

@[simp] theorem State.call_next (s : State) (c : Call) : (s.call c).next = s.next := rfl

@[simp] theorem State.call_trace (s : State) (c : Call) : (s.call c).trace = s.trace ++ [c] := rfl

@[simp] theorem State.update_toParams (s : State) (db : Option ℕ)
    (f : Store Bytes Bytes → Store Bytes Bytes) : (s.update db f).toParams = s.toParams := by
  cases db <;> rfl

@[simp] theorem State.update_next (s : State) (db : Option ℕ)
    (f : Store Bytes Bytes → Store Bytes Bytes) : (s.update db f).next = s.next := by
  cases db <;> rfl

@[simp] theorem State.update_trace (s : State) (db : Option ℕ)
    (f : Store Bytes Bytes → Store Bytes Bytes) : (s.update db f).trace = s.trace := by
  cases db <;> rfl

@[simp] theorem rocksdbUpdate_toParams (c : Call) (db : Option ℕ)
    (f : Store Bytes Bytes → Store Bytes Bytes) (o : Outcome) (s : State) :
    (rocksdbUpdate c db f o s).toParams = s.toParams := by
  rw [rocksdbUpdate]
  split <;> simp

@[simp] theorem rocksdbUpdate_next (c : Call) (db : Option ℕ)
    (f : Store Bytes Bytes → Store Bytes Bytes) (o : Outcome) (s : State) :
    (rocksdbUpdate c db f o s).next = s.next := by
  rw [rocksdbUpdate]
  split <;> simp

@[simp] theorem rocksdbUpdate_trace (c : Call) (db : Option ℕ)
    (f : Store Bytes Bytes → Store Bytes Bytes) (o : Outcome) (s : State) :
    (rocksdbUpdate c db f o s).trace = s.trace ++ [c] := by
  rw [rocksdbUpdate]
  split <;> simp

end Diversity.Rocks
