import ByteGrammar.Files.Error

/-!
# File systems

A file system as a value: files, directories, and a device that is always full, each at the list of names
that leads to it from the root. `locate` follows a path, `read` gives the content of a file and `save`
creates or replaces one. The device takes no content, and reading it, which would never end, is refused.
`node_set` says that setting a node changes no other one.
-/

namespace ByteGrammar

/-- What a name stands for. -/
inductive Node where
  | file (content : ByteArray)
  | directory
  /-- A device on which nothing can be stored. -/
  | full
  deriving Inhabited

/-- The names on the way from the root. -/
abbrev Location := List String

/-- The nodes of a file system below its root, and the directory that relative paths start from. -/
structure FileSystem where
  nodes : List (Location × Node)
  current : Location
  deriving Inhabited

/-- What a path leads to: a directory that it walks into, or an entry of a directory, which the path may
demand to be a directory by a slash at its end. -/
inductive Target where
  | directory (location : Location)
  | entry (parent : Location) (name : String) (slash : Bool)
  deriving DecidableEq, Repr, Inhabited

namespace FileSystem

/-- An empty working directory beside the full device. -/
def empty : FileSystem :=
  ⟨[(["dev"], .directory), (["dev", "full"], .full), (["work"], .directory)], ["work"]⟩

/-- The node at a location. -/
def node? (files : FileSystem) (location : Location) : Option Node :=
  if location = [] then some .directory else files.nodes.lookup location

/-- Replaces or adds an entry of a list of nodes. -/
def setNode (location : Location) (node : Node) : List (Location × Node) → List (Location × Node)
  | [] => [(location, node)]
  | entry :: entries =>
      if entry.1 = location then (location, node) :: entries
      else entry :: setNode location node entries

/-- The file system with a node at a location. -/
def set (files : FileSystem) (location : Location) (node : Node) : FileSystem :=
  { files with nodes := setNode location node files.nodes }

/-- The longest name that a directory can hold, in bytes. -/
def nameLimit : Nat := 255

/-- The longest path, in bytes. -/
def pathLimit : Nat := 4095

/-- The node under a name in a directory, unless no directory could hold the name. -/
def entry? (files : FileSystem) (parent : Location) (name : String) :
    Except FileError (Option Node) :=
  if nameLimit < name.utf8ByteSize then .error .nameTooLong
  else .ok (files.node? (parent ++ [name]))

/-- Walks from a directory into another one. -/
def walk (files : FileSystem) : Location → List String → Except FileError Location
  | here, [] => .ok here
  | here, name :: names =>
      if name = "." then files.walk here names
      else if name = ".." then files.walk here.dropLast names
      else
        match files.entry? here name with
        | .error cause => .error cause
        | .ok none => .error .notFound
        | .ok (some .directory) => files.walk (here ++ [name]) names
        | .ok (some _) => .error .notDirectory

/-- The names of a path. Repeated slashes count once. -/
def pathNames (path : String) : List String :=
  ((path.toList.splitOn '/').filter (· ≠ [])).map String.ofList

/-- Follows a path up to its last name. -/
def locate (files : FileSystem) (path : String) : Except FileError Target :=
  if path.toList.contains '\x00' then .error .zeroInPath
  else if path = "" then .error .notFound
  else if pathLimit < path.utf8ByteSize then .error .nameTooLong
  else
    let start := if path.toList.head? = some '/' then [] else files.current
    match (pathNames path).getLast? with
    | none => .ok (.directory start)
    | some name =>
        match files.walk start (pathNames path).dropLast with
        | .error cause => .error cause
        | .ok here =>
            if name = "." then .ok (.directory here)
            else if name = ".." then .ok (.directory here.dropLast)
            else .ok (.entry here name (path.toList.getLast? = some '/'))

/-- The content of a file. The device has no end, so there is no content to give: where a real program would
read on forever, this is a fault. -/
def read (files : FileSystem) (path : String) : Except FileError ByteArray := do
  match ← files.locate path with
  | .directory _ => throw .isDirectory
  | .entry parent name slash =>
      match ← files.entry? parent name with
      | none => throw .notFound
      | some .directory => throw .isDirectory
      | some (.file content) => if slash then throw .notDirectory else return content
      | some .full => if slash then throw .notDirectory else throw .endless

/-- Where saving to a path would store its content: the location of a file, old or new, or nowhere, on
the device. -/
def open? (files : FileSystem) (path : String) : Except FileError (Option Location) := do
  match ← files.locate path with
  | .directory _ => throw .isDirectory
  | .entry _ _ true => throw .isDirectory
  | .entry parent name false =>
      match ← files.entry? parent name with
      | some .directory => throw .isDirectory
      | some .full => return none
      | some (.file _) | none => return some (parent ++ [name])

/-- Creates or replaces a file. -/
def save (files : FileSystem) (path : String) (content : ByteArray) : Except SaveError FileSystem :=
  match files.open? path with
  | .error cause => .error (.opening cause)
  | .ok none => if content.isEmpty then .ok files else .error (.writing .noSpace)
  | .ok (some location) => .ok (files.set location (.file content))

/-- Adds the directories that lead to a location and are not there yet. -/
def addDirectories (files : FileSystem) : (here : Location) → List String → FileSystem
  | _, [] => files
  | here, name :: names =>
      let here := here ++ [name]
      let files := if (files.node? here).isNone then files.set here .directory else files
      files.addDirectories here names

/-- Adds a directory below the working directory, with the directories that lead to it. -/
def addDirectory (files : FileSystem) (path : String) : FileSystem :=
  files.addDirectories files.current ((pathNames path).filter (· ≠ "."))

/-- Adds or replaces a file below the working directory, with the directories that lead to it. -/
def addFile (files : FileSystem) (path : String) (content : ByteArray) : FileSystem :=
  let names := (pathNames path).filter (· ≠ ".")
  (files.addDirectories files.current names.dropLast).set (files.current ++ names) (.file content)

/-- Whether a location comes before another one, or is the same: names by character, and a directory
before what is in it. -/
def isBefore : Location → Location → Bool
  | [], _ => true
  | _ :: _, [] => false
  | a :: as, b :: bs => if a = b then isBefore as bs else a < b

/-- The nodes below the working directory in order, by the names that lead to them from there. -/
def listing (files : FileSystem) : List (Location × Node) :=
  let below := files.nodes.filterMap fun (location, node) =>
    if files.current.isPrefixOf location && location != files.current then
      some (location.drop files.current.length, node)
    else none
  below.mergeSort fun a b => isBefore a.1 b.1

/-- Looking up after a replacement. -/
theorem lookup_set_node (location other : Location) (node : Node)
    (nodes : List (Location × Node)) :
    (setNode location node nodes).lookup other =
      if other = location then some node else nodes.lookup other := by
  induction nodes with
  | nil =>
      by_cases h : other = location
      · simp [setNode, h]
      · simp [setNode, List.lookup_cons, h, beq_false_of_ne h]
  | cons entry entries ih =>
      obtain ⟨place, old⟩ := entry
      by_cases he : place = location
      · subst he
        by_cases h : other = place
        · simp [setNode, h]
        · simp [setNode, List.lookup_cons, h, beq_false_of_ne h]
      · by_cases h : other = place
        · subst h
          simp [setNode, he]
        · simp [setNode, he, List.lookup_cons, beq_false_of_ne h, ih]

/-- Setting a node changes no other node. -/
theorem node_set (files : FileSystem) {location : Location} (node : Node) (h : location ≠ [])
    (other : Location) :
    (files.set location node).node? other =
      if other = location then some node else files.node? other := by
  by_cases ho : other = []
  · subst ho
    simp [node?, Ne.symm h]
  · simp [node?, ho, set, lookup_set_node]

end FileSystem

end ByteGrammar
