/-!
# Paths

Places inside a document, from its root. Messages show a path as a pointer in which `~` and `/`
within a name are escaped.
-/

namespace Stencil

inductive Segment where
  | field (name : String)
  | index (i : Nat)
deriving DecidableEq

structure Path where
  segments : List Segment
deriving DecidableEq

namespace Segment

def escapedChar (c : Char) : List Char :=
  if c = '~' then ['~', '0'] else if c = '/' then ['~', '1'] else [c]

def render : Segment → String
  | field name => String.ofList (name.toList.flatMap escapedChar)
  | index i => toString i

end Segment

namespace Path

def root : Path :=
  ⟨[]⟩

def field (p : Path) (name : String) : Path :=
  ⟨p.segments ++ [.field name]⟩

def index (p : Path) (i : Nat) : Path :=
  ⟨p.segments ++ [.index i]⟩

def render (p : Path) : String :=
  "#" ++ String.join (p.segments.map fun s => "/" ++ s.render)

example : ((root.field "a/b~").index 0).render = "#/a~1b~0/0" := by decide

end Path

end Stencil
