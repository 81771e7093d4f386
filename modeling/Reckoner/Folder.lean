namespace Reckoner

inductive PathError
  | missing (path : String)
  | isFolder (path : String)
  | notFolder (path : String)
  | tooLong (path : String)
  | holdsNul
deriving DecidableEq

/-- A place in the tree of folders: from its root, or from this folder some levels up, and then down along names. -/
structure Place where
  absolute : Bool
  up : Nat
  names : List String
deriving DecidableEq

namespace Place

/-- The place one level up. There is none above the root. -/
def parent (place : Place) : Place :=
  if !place.names.isEmpty then { place with names := place.names.dropLast }
  else if place.absolute then place
  else { place with up := place.up + 1 }

def child (place : Place) (name : String) : Place := { place with names := place.names ++ [name] }

def follow (place : Place) (name : String) : Place :=
  if name = "." then place else if name = ".." then place.parent else place.child name

def text (place : Place) : String :=
  let names := "/".intercalate (List.replicate place.up ".." ++ place.names)
  if place.absolute then "/" ++ names else names

def along (place : Place) : List String → List Place
  | [] => [place]
  | name :: names => place :: (place.follow name).along names

def startOf (path : String) : Place := ⟨path.startsWith "/", 0, []⟩

end Place

def pathNames (path : String) : List String :=
  ((path.toList.splitOn '/').map String.ofList).filter fun name => name != ""

/-- The folder that a file would be put into, as the path says it; the dot is this folder. Two slashes at the
beginning are kept. -/
def parentOf (path : String) : String :=
  let root := if path.startsWith "//" && !path.startsWith "///" then "//" else if path.startsWith "/" then "/" else ""
  let parent := root ++ "/".intercalate ((pathNames path).filter fun name => name != ".").dropLast
  if parent.isEmpty then "." else parent

/-- The folders that stand below the root everywhere. -/
def standardFolders : List String :=
  ["/bin", "/boot", "/dev", "/etc", "/home", "/lib", "/media", "/mnt", "/opt", "/proc", "/root", "/run", "/sbin",
    "/srv", "/sys", "/tmp", "/usr", "/var"]

/-- The folder of the one who runs the program. -/
def homeFolder : String := "/root"

/-- Puts the home folder in place of a tilde at the beginning of a path. -/
def expandHome (path : String) : String :=
  if path.startsWith "~" then
    let user := path.toList.takeWhile fun c => c != '/'
    if user == "~".toList || user == "~root".toList then homeFolder ++ String.ofList (path.toList.drop user.length)
    else path
  else path

/-- The longest name and the longest path, in bytes. -/
def longestName : Nat := 255

def longestPath : Nat := 4095

/-- What stands at a place. -/
inductive Entry
  | folder (place : Place)
  | file (bytes : ByteArray)

/-- The files in this folder, and the other folders that are known to be there. -/
structure Folder where
  files : List (String × ByteArray)
  others : List String := standardFolders

namespace Folder

def file? (folder : Folder) (name : String) : Option ByteArray :=
  (folder.files.find? fun entry => entry.1 == name).map Prod.snd

/-- What stands at a place. The null device reads as an empty file. -/
def entryAt? (folder : Folder) (place : Place) : Option Entry :=
  match folder.file? place.text with
  | some bytes => some (.file bytes)
  | none =>
    if place.names.isEmpty || folder.others.contains place.text then some (.folder place)
    else if place.text = "/dev/null" then some (.file ByteArray.empty)
    else none

/-- Follows the names of a path. A name can be looked up in a folder only. -/
def walk (folder : Folder) (path : String) : Entry → List String → Except PathError Entry
  | entry, [] => .ok entry
  | .file _, _ :: _ => .error (.notFolder path)
  | .folder place, name :: names =>
    if name = "." || name = ".." then walk folder path (.folder (place.follow name)) names
    else if longestName < name.utf8ByteSize then .error (.tooLong path)
    else match folder.entryAt? (place.child name) with
      | some entry => walk folder path entry names
      | none => .error (.missing path)

/-- Refuses what is no path at all. -/
def acceptPath (path : String) : Except PathError Unit :=
  if path.toList.contains '\x00' then .error .holdsNul
  else if path.isEmpty then .error (.missing path)
  else if longestPath < path.utf8ByteSize then .error (.tooLong path)
  else .ok ()

/-- Finds what a path leads to. A slash at the end asks for a folder. -/
def find (folder : Folder) (path : String) : Except PathError Entry := do
  acceptPath path
  let names := pathNames path ++ if path.endsWith "/" then ["."] else []
  folder.walk path (.folder (Place.startOf path)) names

/-- The bytes of the file that a path leads to. -/
def read (folder : Folder) (path : String) : Except PathError ByteArray :=
  match folder.find path with
  | .ok (.file bytes) => .ok bytes
  | .ok (.folder _) => .error (.isFolder path)
  | .error error => .error error

/-- The place for a file that is to be written, whether or not one is there. -/
def target (folder : Folder) (path : String) : Except PathError Place := do
  acceptPath path
  let names := pathNames path
  let last := names.getLastD "."
  match ← folder.walk path (.folder (Place.startOf path)) names.dropLast with
  | .file _ => .error (.notFolder path)
  | .folder place =>
    if last = "." || last = ".." || path.endsWith "/" then .error (.isFolder path)
    else if longestName < last.utf8ByteSize then .error (.tooLong path)
    else match folder.entryAt? (place.child last) with
      | some (.folder _) => .error (.isFolder path)
      | _ => .ok (place.child last)

end Folder

end Reckoner
