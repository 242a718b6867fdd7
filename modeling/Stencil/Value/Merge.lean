import Stencil.Path
import Stencil.Value.Node

/-!
# Merging

How a parent value is put under a template, member by member: members that only the parent has are
copied, arrays are joined, objects are merged, and in all else the template wins. A deleted member
of the template deletes an array or object of the parent. The parent is copied and stays as it is.
-/

namespace Stencil

/-- Why two values cannot be merged. -/
inductive MergeFault where
  | itself
  | kinds (parent template : Value.Kind)
deriving DecidableEq

def MergeFault.message : MergeFault → String
  | itself => "cannot merge a value into itself"
  | kinds parent template => "cannot merge " ++ parent.name ++ " into " ++ template.name

structure MergeConflict where
  path : Path
  fault : MergeFault
deriving DecidableEq

/-- What merging has made of the template, and the conflict that ended it early, if one did. -/
structure Merged (α : Type) where
  result : α
  conflict : Option MergeConflict

namespace Value

/-- Puts the parent's items behind what the template has: its items, or itself as the only one. -/
def joined (template : Value) (items : List Value) : Value :=
  match template with
  | array _ own => ofItems (own ++ copyItems items)
  | v => ofItems (v :: copyItems items)

mutual

/-- Merges a parent into a template. A node that is changed becomes a new one. -/
def mergeAt (path : Path) (parent template : Value) : Merged Value :=
  if template.sameNode parent then ⟨template, some ⟨path, .itself⟩⟩
  else
    match parent, template with
    | object _ members, object _ own =>
      let merged := mergeMembers path members own
      ⟨ofMembers merged.result, merged.conflict⟩
    | array _ items, array _ _ => ⟨template.joined items, none⟩
    | object _ _, array _ own => ⟨ofItems (own ++ [parent.deepCopy]), none⟩
    | object _ _, _ | array _ _, _ =>
      ⟨template, some ⟨path, .kinds parent.kind template.kind⟩⟩
    | _, _ => ⟨template, none⟩

/-- Merges the parent's members one after another into the template's. -/
def mergeMembers (path : Path) :
    (members : List (String × Value)) → (template : Fields Value) → Merged (Fields Value)
  | [], template => ⟨template, none⟩
  | (name, parent) :: rest, template =>
    match template.get? name with
    | none => mergeMembers path rest (template.insert name parent.deepCopy)
    | some own =>
      if own.sameNode parent then ⟨template, some ⟨path.field name, .itself⟩⟩
      else
        match parent with
        | array _ items =>
          if own.isDeletion then mergeMembers path rest (template.erase name)
          else mergeMembers path rest (template.insert name (own.joined items))
        | object _ _ =>
          if own.isDeletion then mergeMembers path rest (template.erase name)
          else
            let merged := mergeAt (path.field name) parent own
            let template := template.insert name merged.result
            match merged.conflict with
            | some conflict => ⟨template, some conflict⟩
            | none => mergeMembers path rest template
        | _ => mergeMembers path rest template

end

def merged (template parent : Value) : Merged Value :=
  mergeAt .root parent template

/-- The template with the parent merged into it. -/
def merge (template parent : Value) : Except MergeConflict Value :=
  let merged := template.merged parent
  match merged.conflict with
  | some conflict => .error conflict
  | none => .ok merged.result

mutual

/-- Leaves out deleted members and items at every depth. The value itself stays. -/
def stripNulls : Value → Value
  | array _ items => ofItems (stripItems items)
  | object _ members => ofMembers (stripMembers members)
  | v => v

def stripItems : List Value → List Value
  | [] => []
  | v :: vs => if v.isDeletion then stripItems vs else v.stripNulls :: stripItems vs

def stripMembers : List (String × Value) → Fields Value
  | [] => []
  | (name, v) :: ms =>
    if v.isDeletion then stripMembers ms else (name, v.stripNulls) :: stripMembers ms

end

end Value

end Stencil
