/-!
# Caches

A cache keeps the latest result for each document together with the text that
it was computed from. A result is computed again only when the text changes
or the document was dropped. Two texts are compared through a digest of them.
-/

set_option autoImplicit false

namespace DiagramText

structure Cache (α : Type) where
  entries : List (String × String × α) := []

namespace Cache

variable {α : Type}

def find? (c : Cache α) (document : String) : Option (String × α) := c.entries.lookup document

def remove (c : Cache α) (document : String) : Cache α :=
  ⟨c.entries.filter (·.1 != document)⟩

def contains (c : Cache α) (document : String) : Bool := (c.find? document).isSome

def insert (c : Cache α) (document text : String) (result : α) : Cache α :=
  ⟨(document, text, result) :: (c.remove document).entries⟩

def clear (_ : Cache α) : Cache α := {}

def size (c : Cache α) : Nat := c.entries.length

def isEmpty (c : Cache α) : Bool := c.entries.isEmpty

/-- The answer to a request: the result, whether it was computed, and the cache after it. -/
structure Answer (α : Type) where
  result : α
  computed : Bool
  cache : Cache α

def getBy {δ : Type} [DecidableEq δ] (digest : String → δ) (c : Cache α)
    (document text : String) (compute : String → α) : Answer α :=
  match c.find? document with
  | some (kept, result) =>
    if digest kept = digest text then ⟨result, false, c⟩
    else ⟨compute text, true, c.insert document text (compute text)⟩
  | none => ⟨compute text, true, c.insert document text (compute text)⟩

def get (c : Cache α) (document text : String) (compute : String → α) : Answer α :=
  c.getBy id document text compute

end Cache

end DiagramText
