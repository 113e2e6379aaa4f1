import Hesape.Filesystem.Disk

/-!
# The local driver

Files in a directory of the machine.  A directory is a list of named entries, an entry is a file or
a directory, and there are no links: the driver plants none.  A stored path is joined to the root,
cleaned, and refused when it is not under the root; what is left of it is a name relative to the
root, and an operation walks its parts.  Writing makes the directories on the way, writes a partial
file beside the destination and renames it into place; a listing walks from the deepest directory
its prefix names.  Times are left out, and so is the order in which a directory answers its entries.
-/

namespace Hesape.Filesystem.Local

open Hesape.Run
open Hesape.Text (Bytes)
open Hesape.Text.Path
open List

/-! ### Directories -/

mutual
/-- A file or a directory. -/
inductive Node
  | file (body : Bytes)
  | dir (entries : Entries)

/-- What a directory holds. -/
inductive Entries
  | nil
  | cons (name : Bytes) (node : Node) (rest : Entries)
end

namespace Entries

def lookup (name : Bytes) : Entries → Option Node
  | nil => none
  | cons other node rest => if other = name then some node else rest.lookup name

def remove (name : Bytes) : Entries → Entries
  | nil => nil
  | cons other node rest => if other = name then rest.remove name else cons other node (rest.remove name)

/-- What stands under a name from now on, if anything. -/
def assign (name : Bytes) (slot : Option Node) (entries : Entries) : Entries :=
  match slot with
  | none => entries.remove name
  | some node => cons name node (entries.remove name)

theorem lookup_remove_self (name : Bytes) : ∀ entries : Entries, (entries.remove name).lookup name = none
  | nil => rfl
  | cons other node rest => by
    rw [remove]
    split_ifs with h
    · exact lookup_remove_self name rest
    · rw [lookup, if_neg h, lookup_remove_self name rest]

variable {name other : Bytes}

theorem lookup_remove_of_ne (hne : other ≠ name) :
    ∀ entries : Entries, (entries.remove name).lookup other = entries.lookup other
  | nil => rfl
  | cons first node rest => by
    rw [remove]
    split_ifs with h
    · rw [lookup_remove_of_ne hne rest, lookup, if_neg fun heq => hne (heq.symm.trans h)]
    · rw [lookup, lookup, lookup_remove_of_ne hne rest]

theorem lookup_assign_self (name : Bytes) (slot : Option Node) (entries : Entries) :
    (entries.assign name slot).lookup name = slot := by
  cases slot with
  | none => exact lookup_remove_self name entries
  | some => rw [assign, lookup, if_pos rfl]

theorem lookup_assign_of_ne (hne : other ≠ name) (slot : Option Node) (entries : Entries) :
    (entries.assign name slot).lookup other = entries.lookup other := by
  cases slot with
  | none => exact lookup_remove_of_ne hne entries
  | some => rw [assign, lookup, if_neg fun h => hne h.symm, lookup_remove_of_ne hne]

end Entries

/-- What a name's parts lead to, below a node. -/
def find : List Bytes → Node → Except Fault Node
  | [], node => .ok node
  | name :: rest, .dir entries =>
    match entries.lookup name with
    | none => .error .notExist
    | some node => find rest node
  | _ :: _, .file _ => .error .notDir

/-- What an operation does to the place a name's parts lead to. -/
def descend {α : Type} (f : Option Node → Except Fault α × Option Node) :
    List Bytes → Option Node → Except Fault α × Option Node
  | [], slot => f slot
  | name :: rest, some (.dir entries) =>
    let r := descend f rest (entries.lookup name)
    (r.1, some (.dir (entries.assign name r.2)))
  | _ :: _, some (.file body) => (.error .notDir, some (.file body))
  | _ :: _, none => (.error .notExist, none)

/-- `MkdirAll`: the directories on the way are made where there is nothing. -/
def makeAll : List Bytes → Option Node → Except Fault Unit × Option Node
  | [], none => (.ok (), some (.dir .nil))
  | [], some (.dir entries) => (.ok (), some (.dir entries))
  | [], some (.file body) => (.error .notDir, some (.file body))
  | name :: rest, none =>
    let r := makeAll rest none
    (r.1, some (.dir (Entries.nil.assign name r.2)))
  | name :: rest, some (.dir entries) =>
    let r := makeAll rest (entries.lookup name)
    (r.1, some (.dir (entries.assign name r.2)))
  | _ :: _, some (.file body) => (.error .notDir, some (.file body))

/-- A file renamed into place; a directory is not replaced by one. -/
def replace (body : Bytes) : Option Node → Except Fault Unit × Option Node
  | some (.dir entries) => (.error .isDir, some (.dir entries))
  | _ => (.ok (), some (.file body))

/-- `Remove`: a file, or a directory with nothing in it. -/
def unlink : Option Node → Except Fault Unit × Option Node
  | none => (.error .notExist, none)
  | some (.file _) => (.ok (), none)
  | some (.dir .nil) => (.ok (), none)
  | some (.dir entries) => (.error .notEmpty, some (.dir entries))

/-- The parts of a name relative to the root, `.` being the root itself. -/
def partsOf (name : Bytes) : List Bytes := if name = [46] then [] else name.splitOn 47

/-- What is found under a name. -/
def look (parts : List Bytes) : EStateM Err Entries (Except Fault Node) := fun root =>
  .ok (find parts (.dir root)) root

/-- What is done to what is found under a name; the root itself stays. -/
def edit {α : Type} (f : List Bytes → Option Node → Except Fault α × Option Node) (parts : List Bytes) :
    EStateM Err Entries (Except Fault α) := fun root =>
  match parts with
  | [] => .ok (.error .invalid) root
  | first :: rest => .ok (f rest (root.lookup first)).1 (root.assign first (f rest (root.lookup first)).2)

/-! ### Names under the root -/

/-- An absolute path, clean as `filepath.Abs` leaves it. -/
structure Root where
  parts : List Bytes
  proper : ∀ part ∈ parts, Proper part

def Root.text (root : Root) : Bytes := 47 :: join root.parts

/-- `filepath.Join(a.root, storedPath)` -/
def full (root : Root) (storedPath : Bytes) : Bytes := clean (root.text ++ 47 :: storedPath)

def resolve (root : Root) (storedPath : Bytes) : Except Err Bytes :=
  if 0 ∈ storedPath then .error .badKey
  else if full root storedPath ≠ root.text ∧ ¬ root.text ++ [47] <+: full root storedPath then .error .badKey
  else if full root storedPath = root.text then .ok [46]
  else .ok ((full root storedPath).drop (root.text.length + 1))

def file (root : Root) (storedPath : Bytes) : Except Err Bytes := do
  let name ← resolve root storedPath
  if name = [46] then .error .badKey else .ok name

/-- The directory a listing starts in: what the prefix holds up to its last slash. -/
def dirOf (prefix' : Bytes) : Bytes :=
  if endsInSlash prefix' then prefix' else (prefix'.reverse.dropWhile (· ≠ 47)).reverse

/-! ### The six operations -/

/-- `.hesape-partial-` -/
def partialPrefix : Bytes := Text.ascii ".hesape-partial-".toList

/-- The name is text, as `fs.ValidPath` asks. -/
def validPath (name : Bytes) : Bool := ByteArray.validateUTF8 ⟨name.toArray⟩

mutual
/-- The stored files at and below a node that begin with a prefix. -/
def walk (prefix' path base : Bytes) : Node → Except Fault (List Bytes)
  | .file _ => .ok (if ¬ partialPrefix <+: base ∧ prefix' <+: path then [path] else [])
  | .dir entries => if validPath path then walkAll prefix' path entries else .error .invalid

def walkAll (prefix' path : Bytes) : Entries → Except Fault (List Bytes)
  | .nil => .ok []
  | .cons name node rest => do
    let here ← walk prefix' (if path = [46] then name else path ++ 47 :: name) name node
    let after ← walkAll prefix' path rest
    .ok (here ++ after)
end

/-- A fault, named by what was being done. -/
def reported (doing : String) (storedPath : Bytes) : Except Fault Unit → EStateM Err Entries Unit
  | .error fault => throw (.driver doing storedPath fault)
  | .ok _ => pure ()

variable (root : Root) (typeByExtension : Bytes → Bytes)

def put (storedPath body _contentType : Bytes) : EStateM Err Entries Unit := do
  let name ← given (file root storedPath)
  let directory := (partsOf name).dropLast
  if directory ≠ [] then
    reported "creating the directory for" storedPath (← edit makeAll directory)
  reported "writing" storedPath (← edit (descend (replace body)) (partsOf name))

def stat (storedPath : Bytes) : EStateM Err Entries Info := do
  let name ← given (file root storedPath)
  match ← look (partsOf name) with
  | .error .notExist => throw .notFound
  | .error fault => throw (.driver "reading" storedPath fault)
  | .ok (.dir _) => throw .notFound
  | .ok (.file body) =>
    pure { key := storedPath, size := body.length, contentType := typeOf typeByExtension storedPath }

def get (storedPath : Bytes) : EStateM Err Entries File := do
  let info ← stat root typeByExtension storedPath
  let name ← given (file root storedPath)
  match ← look (partsOf name) with
  | .error .notExist => throw .notFound
  | .error fault => throw (.driver "reading" storedPath fault)
  | .ok (.dir _) => throw (.driver "reading" storedPath .isDir)
  | .ok (.file body) => pure { info with body }

def exists' (storedPath : Bytes) : EStateM Err Entries Bool := do
  let name ← given (file root storedPath)
  match ← look (partsOf name) with
  | .error .notExist => pure false
  | .error fault => throw (.driver "checking" storedPath fault)
  | .ok (.dir _) => pure false
  | .ok (.file _) => pure true

def delete (storedPath : Bytes) : EStateM Err Entries Unit := do
  let name ← given (file root storedPath)
  match ← edit (descend unlink) (partsOf name) with
  | .error .notExist => pure ()
  | .error fault => throw (.driver "deleting" storedPath fault)
  | .ok _ => pure ()

def list (prefix' : Bytes) : EStateM Err Entries (List Bytes) := do
  let start ← given (resolve root (dirOf prefix'))
  if validPath start = false then throw (.driver "listing" prefix' .invalid)
  match ← look (partsOf start) with
  | .error .notExist => pure []
  | .error fault => throw (.driver "listing" prefix' fault)
  | .ok node =>
    match walk prefix' start ((partsOf start).getLastD [46]) node with
    | .error fault => throw (.driver "listing" prefix' fault)
    | .ok out => pure out

/-- The driver over the directory `root` names. -/
def adapter : Adapter Entries where
  put := put root
  get := get root typeByExtension
  stat := stat root typeByExtension
  exists' := exists' root
  delete := delete root
  list := list root

/-! ### Where a stored path leads -/

variable {l : List Bytes}

theorem full_of_proper {root : Root} (hl : ∀ part ∈ l, Proper part) {path : Bytes}
    (hpath : path.splitOn 47 = l ∨ path.splitOn 47 = l ++ [[]]) : full root path = 47 :: join (root.parts ++ l) := by
  unfold full Root.text
  rw [cons_append]
  by_cases hroot : root.parts = []
  · -- the slash of the root and the one after it are one
    rw [hroot, nil_append]
    show clean (47 :: 47 :: path) = _
    rw [← clean_rooted hl hpath, clean, clean, head?_cons, if_pos rfl, head?_cons, if_pos rfl, parts,
      splitOn_slash, foldl_cons, push_empty, ← parts]
  · refine clean_rooted (fun part hp => ?_) ?_
    · rcases mem_append.mp hp with hp | hp
      · exact root.proper part hp
      · exact hl part hp
    · rw [splitOn_append_cons_self, splitOn_join hroot root.proper]
      rcases hpath with h | h
      · exact .inl (by rw [h])
      · exact .inr (by rw [h, append_assoc])

/-- A path of proper parts names those parts under the root; under `/` it is refused. -/
theorem resolve_of_proper {root : Root} (hne : l ≠ []) (hl : ∀ part ∈ l, Proper part) {path : Bytes}
    (hnul : 0 ∉ path) (hpath : path.splitOn 47 = l ∨ path.splitOn 47 = l ++ [[]]) :
    resolve root path = if root.parts = [] then .error .badKey else .ok (join l) := by
  have hfull : full root path = 47 :: join (root.parts ++ l) := full_of_proper hl hpath
  unfold resolve
  rw [if_neg hnul, hfull]
  by_cases hroot : root.parts = []
  · have hpre : ¬ (47 : UInt8) :: 47 :: [] <+: 47 :: join l := by
      rintro ⟨_, hrest⟩
      refine head_join hl ?_
      rw [← cons_injective hrest]
      rfl
    have hnot : ¬ ((47 : UInt8) :: join l = [47]) := fun h => join_ne_nil hne hl (cons_injective h)
    rw [if_pos hroot, Root.text, hroot, nil_append, if_pos ⟨hnot, hpre⟩]
  · have happ : join (root.parts ++ l) = join root.parts ++ 47 :: join l := join_append hroot hne
    have hnot : ¬ (47 :: join (root.parts ++ l) = root.text) := by
      intro h
      rw [happ, Root.text] at h
      have := congrArg length (cons_injective h)
      simp at this
    have hpre : root.text ++ [47] <+: 47 :: join (root.parts ++ l) := ⟨join l, by rw [happ, Root.text]; simp⟩
    rw [if_neg fun h => h.2 hpre, if_neg hnot, if_neg hroot, happ, Root.text]
    congr 1
    have : (47 :: (join root.parts ++ 47 :: join l)) = (47 :: join root.parts ++ [47]) ++ join l := by simp
    rw [this, drop_left' (by simp)]

theorem partsOf_join (hne : l ≠ []) (hl : ∀ part ∈ l, Proper part) : partsOf (join l) = l := by
  have hdot : join l ≠ [46] := by
    intro h
    have hsplit := splitOn_join hne hl
    rw [h] at hsplit
    exact (hl [46] (hsplit ▸ (by decide))).2.2.1 rfl
  rw [partsOf, if_neg hdot, splitOn_join hne hl]

end Hesape.Filesystem.Local
