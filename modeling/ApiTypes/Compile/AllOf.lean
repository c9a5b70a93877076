import ApiTypes.Compile.Session

/-!
  What the members of an `allOf` say together.

  Members may be references and may have an `allOf` of their own.

  * `anyUnion` tells whether a union is reached from the members, by references and nested lists.
    A reference is looked into once.
  * `flatten` lists the members without references and without nested lists; what a schema says
    itself comes before what its nested members say.
  * `mergeAll` merges a list from left to right.
-/

namespace ApiTypes

namespace Schema

/-- What a node says besides its `allOf`, when that constrains it. -/
def ownKeywords (node : Json) : Option (List (String × Json)) :=
  match node with
  | .obj members =>
    let own := Entries.erase "allOf" members
    let constrains := own.any fun entry =>
      !isMetadataKey entry.1 && entry.1 ≠ "nullable" && entry.1 ≠ "discriminator"
    if constrains then some own else none
  | _ => none

/-- Merges members from left to right, starting from what comes before them. -/
def mergeAll (start : Option (List (String × Json))) (members : List Json) :
    Except MergeConflict (Option (List (String × Json))) :=
  members.foldlM (fun merged member => (merge merged member).map some) start

end Schema

namespace Env

/-! ## 1. Looking for unions -/

/-- Looks into the nodes one after the other until one has a union. The references that were
    looked into are handed on. -/
def anyUnionIn (look : List String → Json → Except CompileError (Bool × List String)) :
    List String → List Json → Except CompileError (Bool × List String)
  | seen, [] => .ok (false, seen)
  | seen, node :: rest => do
    let (found, seen) ← look seen node
    if found then return (true, seen) else anyUnionIn look seen rest

/-- Whether a node leads to a union. A reference that was seen before adds nothing. -/
def leadsToUnion (env : Env) (site : Site) :
    Nat → List String → Json → Except CompileError (Bool × List String)
  | 0, seen, _ => .ok (false, seen)
  | fuel + 1, seen, node => do
    let reference := Schema.reference? node
    if reference.any seen.contains then return (false, seen)
    let seen := reference.toList ++ seen
    let target ← env.deref node site
    if Schema.hasUnion target then return (true, seen)
    anyUnionIn (env.leadsToUnion site fuel) seen (Schema.membersOf "allOf" target)

/-- Whether some member leads to a union. A way through the document passes each reference at
    most once, and between two references it only goes down, so the square of the size is far
    enough. -/
def anyUnion (env : Env) (site : Site) (members : List Json) : Except CompileError Bool := do
  let size := env.size + Json.sizeOfItems members + 1
  return (← anyUnionIn (env.leadsToUnion site (size * size)) [] members).1

/-! ## 2. Flattening -/

/-- What a schema with nested members says itself, if anything. -/
def besidesAllOf (node : Json) : List Json :=
  match node with
  | .obj members =>
    let own := Entries.erase "allOf" members
    if own.isEmpty then [] else [.obj own]
  | _ => []

/-- The schemas behind the members, with nested members in place of their list. The first number
    is how many levels of lists are left. -/
def flatten (env : Env) (site : Site) : Nat → List Json → Except CompileError (List Json)
  | 0, _ => .error (.nestingTooDeep site.display maxDepth)
  | levels + 1, members => do
    let parts ← members.mapM fun member => do
      let node ← env.deref member site
      let nested := Schema.membersOf "allOf" node
      if nested.isEmpty then return [node]
      else return besidesAllOf node ++ (← env.flatten site levels nested)
    return parts.flatten

/-- The schema that the members describe together, and with them what comes before. -/
def mergedMembers (env : Env) (site : Site) (own : Option (List (String × Json)))
    (members : List Json) : Except CompileError (List (String × Json)) := do
  let flat ← env.flatten site (maxDepth + 1) members
  match Schema.mergeAll own flat with
  | .ok merged => return merged.getD []
  | .error conflict => throw (.incompatibleMerge site.display conflict)

end Env

end ApiTypes
