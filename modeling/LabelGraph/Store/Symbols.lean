import LabelGraph.Store.Error
import Std.Data.HashMap
import Std.Data.HashSet

/-!
Words and their handles. A table numbers its words in the order in which they
first appear, so tables that start with the same words agree on their handles.
-/

namespace LabelGraph

/-- The handle of an interned word. -/
structure Symbol where
  index : Nat
deriving DecidableEq, Repr, Hashable, Inhabited

instance : ToString Symbol where
  toString s := s!"${s.index}"

structure Keywords where
  words : Array String := #[]
  members : Std.HashSet String := ∅

namespace Keywords

/-- The label of the edge from a block's owner to a label inside the block. It is
no identifier, so no word of a text is equal to it. -/
def containsLabel : String := "<contains>"

/-- The words reserved in every table. -/
def builtIn : List String :=
  [containsLabel, ".section", ".global", ".extern", ".align", ".byte", ".word", ".quad",
    ".ascii", "mov", "lea", "add", "sub", "cmp", "push", "pop", "jmp", "je", "jne", "call",
    "ret", "nop"]

def empty : Keywords := {}

def contains (k : Keywords) (word : String) : Bool := k.members.contains word

def insert (k : Keywords) (word : String) : Keywords :=
  if k.contains word then k
  else { words := k.words.push word, members := k.members.insert word }

def insertAll (k : Keywords) (words : List String) : Keywords :=
  words.foldl insert k

def ofList (words : List String) : Keywords := empty.insertAll words

def standard : Keywords := ofList builtIn

def toList (k : Keywords) : List String := k.words.toList

def size (k : Keywords) : Nat := k.words.size

end Keywords

/-- The words interned so far, with their handles and total length in bytes. -/
structure SymbolTable where
  words : Array String := #[]
  handles : Std.HashMap String Symbol := ∅
  bytes : Nat := 0

namespace SymbolTable

def empty : SymbolTable := {}

instance : Inhabited SymbolTable := ⟨empty⟩

def size (t : SymbolTable) : Nat := t.words.size

def get? (t : SymbolTable) (word : String) : Option Symbol := t.handles[word]?

/-- The word behind a handle. A handle of another table may have none. -/
def resolve (t : SymbolTable) (s : Symbol) : Except StoreError String :=
  match t.words[s.index]? with
  | some word => .ok word
  | none => .error (.invalidIndex .symbol s.index t.size)

/-- The word behind a handle, or a mark that no word can be. -/
def spell (t : SymbolTable) (s : Symbol) : String :=
  match t.resolve s with
  | .ok word => word
  | .error _ => "<?>"

/-- The handle of the word. A word that is new gets the next free handle. -/
def intern (word : String) : StoreM SymbolTable Symbol := fun t =>
  match t.get? word with
  | some s => .ok s t
  | none =>
    if t.size < indexCapacity then
      let s : Symbol := ⟨t.size⟩
      .ok s
        { words := t.words.push word
          handles := t.handles.insert word s
          bytes := t.bytes + word.utf8ByteSize }
    else .error (.capacityExceeded .symbol indexCapacity) t

def internAll (words : List String) : StoreM SymbolTable Unit :=
  words.forM fun word => discard (intern word)

/-- The table whose first handles belong to the reserved words. -/
def seeded (k : Keywords) : Except StoreError SymbolTable :=
  match internAll k.toList empty with
  | .ok _ t => .ok t
  | .error e _ => .error e

def toList (t : SymbolTable) : List (Symbol × String) :=
  t.words.toList.zipIdx.map fun (word, i) => (⟨i⟩, word)

end SymbolTable

end LabelGraph
