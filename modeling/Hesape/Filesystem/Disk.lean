import Hesape.Filesystem.Key
import Hesape.Run.Effect
import Mathlib.Data.List.Sort

/-!
# A disk over a driver

A driver keeps files under stored paths and knows six operations; a disk is what an application
calls, with a `Grant` in hand, and everything it asks of the driver goes through `key` or
`prefixPath`.  Copying, moving, joining and every narrower listing are made of the six.  A driver
is a state and six computations over it that may fail part-way.
-/

namespace Hesape.Filesystem

open Hesape.Run
open Hesape.Text (Bytes)

structure Info where
  key : Bytes
  size : Nat
  contentType : Bytes

structure File extends Info where
  body : Bytes

/-- What a driver implements. -/
structure Adapter (S : Type) where
  put : Bytes → Bytes → Bytes → EStateM Err S Unit
  get : Bytes → EStateM Err S File
  stat : Bytes → EStateM Err S Info
  exists' : Bytes → EStateM Err S Bool
  delete : Bytes → EStateM Err S Unit
  list : Bytes → EStateM Err S (List Bytes)

/-- `path.Ext`: what stands from the last dot of the last part on. -/
def ext (path : Bytes) : Bytes :=
  let last := (path.reverse.takeWhile (· ≠ 47)).reverse
  if 46 ∈ last then 46 :: (last.reverse.takeWhile (· ≠ 46)).reverse else []

/-- `application/octet-stream` -/
def octetStream : Bytes := Text.ascii "application/octet-stream".toList

/-- The type of a key by its extension, as the table of types has it. -/
def typeOf (typeByExtension : Bytes → Bytes) (key : Bytes) : Bytes :=
  if typeByExtension (ext key) ≠ [] then typeByExtension (ext key) else octetStream

theorem typeOf_ne_nil (types : Bytes → Bytes) (key : Bytes) : typeOf types key ≠ [] := by
  unfold typeOf
  split_ifs with h
  · exact h
  · decide

structure Disk (S : Type) where
  name : String
  adapter : Adapter S
  typeByExtension : Bytes → Bytes

/-- `strings.TrimPrefix` -/
def trimPrefix (dir key : Bytes) : Bytes := if dir <+: key then key.drop dir.length else key

def asDirectory (directory : Bytes) : Bytes :=
  if directory = [] ∨ endsInSlash directory then directory else directory ++ [47]

/-- `sort.Strings` -/
def sorted (keys : List Bytes) : List Bytes := keys.insertionSort (fun a b => a ≤ b)

/-- What stands up to each slash of a text, the first one only or all. -/
def cuts (recursive : Bool) : Bytes → List Bytes
  | [] => []
  | c :: rest =>
    if c = 47 then [47] :: (if recursive then (cuts recursive rest).map (c :: ·) else [])
    else (cuts recursive rest).map (c :: ·)

namespace Disk

variable {S : Type} (d : Disk S) (g : Grant)

/-- The disk and the key are named in an error of the driver. -/
def wrap {α : Type} (op : String) (k : Bytes) (x : EStateM Err S α) : EStateM Err S α := do
  match ← attempt x with
  | .ok a => pure a
  | .error e => throw (.wrapped op k d.name e)

/-- `auth.Writable` -/
def writable : Except Err Unit := if g.readOnly then .error .readOnly else .ok ()

def put (k body contentType : Bytes) : EStateM Err S Unit := do
  given (writable g)
  let full ← given (key g k)
  d.wrap "put" k (d.adapter.put full body (if contentType = [] then typeOf d.typeByExtension k else contentType))

def get (k : Bytes) : EStateM Err S File := do
  let full ← given (key g k)
  let f ← d.wrap "get" k (d.adapter.get full)
  pure { f with key := k }

def stat (k : Bytes) : EStateM Err S Info := do
  let full ← given (key g k)
  let i ← d.wrap "stat" k (d.adapter.stat full)
  pure { i with key := k }

def exists' (k : Bytes) : EStateM Err S Bool := do
  let full ← given (key g k)
  d.wrap "exists" k (d.adapter.exists' full)

def delete (k : Bytes) : EStateM Err S Unit := do
  given (writable g)
  let full ← given (key g k)
  d.wrap "delete" k (d.adapter.delete full)

/-- Stored paths as the tenant's keys; what is not the tenant's is dropped. -/
def ownKeys (paths : List Bytes) : List Bytes :=
  (paths.filter (g.tenant ++ [47] <+: ·)).map (trimPrefix (g.tenant ++ [47]))

def allFiles (directory : Bytes) : EStateM Err S (List Bytes) := do
  let full ← given (prefixPath g directory)
  let paths ← d.wrap "list" directory (d.adapter.list full)
  pure (sorted (ownKeys g paths))

def files (directory : Bytes) : EStateM Err S (List Bytes) := do
  let dir := asDirectory directory
  let all ← d.allFiles g dir
  pure (all.filter fun key => 47 ∉ trimPrefix dir key)

/-- The names of directories read off keys, each once. -/
def directoryNames (dir : Bytes) (recursive : Bool) (all : List Bytes) : List Bytes :=
  sorted ((all.flatMap fun key => (cuts recursive (trimPrefix dir key)).map (dir ++ ·)).dedup)

def directories' (directory : Bytes) (recursive : Bool) : EStateM Err S (List Bytes) := do
  let dir := asDirectory directory
  let all ← d.allFiles g dir
  pure (directoryNames dir recursive all)

def directories (directory : Bytes) : EStateM Err S (List Bytes) := d.directories' g directory false

def allDirectories (directory : Bytes) : EStateM Err S (List Bytes) := d.directories' g directory true

def copy (src dst : Bytes) : EStateM Err S Unit := do
  let f ← d.get g src
  d.put g dst f.body f.contentType

def move (src dst : Bytes) : EStateM Err S Unit :=
  if src = dst then pure ()
  else do
    d.copy g src dst
    d.delete g src

/-- The keys are deleted one after the other, up to the first that fails. -/
def deleteAll : List Bytes → EStateM Err S Unit
  | [] => pure ()
  | k :: keys => do
    d.delete g k
    deleteAll keys

def deleteDirectory (directory : Bytes) : EStateM Err S Unit := do
  let keys ← d.allFiles g directory
  d.deleteAll g keys

def join (k data : Bytes) (front : Bool) : EStateM Err S Unit := do
  match ← attempt (d.get g k) with
  | .error e => if e.isNotFound then d.put g k data [] else throw e
  | .ok existing =>
    d.put g k (if front then data ++ 10 :: existing.body else existing.body ++ 10 :: data) existing.contentType

def append (k data : Bytes) : EStateM Err S Unit := d.join g k data false

def prepend (k data : Bytes) : EStateM Err S Unit := d.join g k data true

end Disk

/-! ### Calls one after the other -/

inductive Call
  | put (k body contentType : Bytes)
  | get (k : Bytes)
  | stat (k : Bytes)
  | exists' (k : Bytes)
  | delete (k : Bytes)
  | copy (src dst : Bytes)
  | move (src dst : Bytes)
  | append (k data : Bytes)
  | prepend (k data : Bytes)
  | allFiles (directory : Bytes)
  | files (directory : Bytes)
  | directories (directory : Bytes)
  | allDirectories (directory : Bytes)
  | deleteDirectory (directory : Bytes)

inductive Answer
  | done
  | file (f : File)
  | info (i : Info)
  | found (b : Bool)
  | keys (l : List Bytes)

variable {S : Type}

def Disk.call (d : Disk S) (g : Grant) : Call → EStateM Err S Answer
  | .put k body contentType => do d.put g k body contentType; pure .done
  | .get k => do pure (.file (← d.get g k))
  | .stat k => do pure (.info (← d.stat g k))
  | .exists' k => do pure (.found (← d.exists' g k))
  | .delete k => do d.delete g k; pure .done
  | .copy src dst => do d.copy g src dst; pure .done
  | .move src dst => do d.move g src dst; pure .done
  | .append k data => do d.append g k data; pure .done
  | .prepend k data => do d.prepend g k data; pure .done
  | .allFiles directory => do pure (.keys (← d.allFiles g directory))
  | .files directory => do pure (.keys (← d.files g directory))
  | .directories directory => do pure (.keys (← d.directories g directory))
  | .allDirectories directory => do pure (.keys (← d.allDirectories g directory))
  | .deleteDirectory directory => do d.deleteDirectory g directory; pure .done

/-- What a sequence of calls is answered, errors and all. -/
def Disk.answers (d : Disk S) (g : Grant) : List Call → S → List (Except Err Answer)
  | [], _ => []
  | c :: calls, s => answer (d.call g c) s :: d.answers g calls (after (d.call g c) s)

/-- What a sequence of calls leaves behind. -/
def Disk.leaves (d : Disk S) (g : Grant) : List Call → S → S
  | [], s => s
  | c :: calls, s => d.leaves g calls (after (d.call g c) s)

end Hesape.Filesystem
