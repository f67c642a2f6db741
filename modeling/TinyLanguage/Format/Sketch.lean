import TinyLanguage.Format.Graph
import TinyLanguage.Tree.Draft

namespace TinyLanguage

structure Graph.Sketch where
  items : List Graph.Item := []
  nextId : Nat := 0

namespace Graph.Sketch

def fresh : StateM Sketch Nat :=
  modifyGet fun s => (s.nextId, { s with nextId := s.nextId + 1 })

def put (item : Item) : StateM Sketch Unit :=
  modify fun s => { s with items := s.items ++ [item] }

def align (heads : List Nat) : StateM Sketch Unit :=
  if 2 < heads.length then put (.sameRank heads) else return

def tie (former : Option Nat) (id : Nat) : StateM Sketch Unit :=
  match former with
  | none => return
  | some previous => do
    put (.next previous id)
    put (.sameRank [previous, id])

end Graph.Sketch

namespace Draft

open Graph.Sketch

mutual

/-- Draws a node with all below it, and then what stands behind it. The result is the number of the
node. -/
def sketch (former : Option Nat) : Draft → StateM Graph.Sketch Nat
  | ⟨kind, _, children, next?⟩ => do
    let id ← fresh
    put (.node id kind)
    let heads ← sketchChildren id children
    align heads
    tie former id
    sketchNext id next?
    return id

def sketchChildren (parent : Nat) : List Draft → StateM Graph.Sketch (List Nat)
  | [] => return []
  | c :: cs => do
    let head ← c.sketch none
    put (.child parent head)
    return head :: (← sketchChildren parent cs)

def sketchNext (former : Nat) : Option Draft → StateM Graph.Sketch Unit
  | none => return
  | some d => discard (d.sketch (some former))

end

def drawing (d : Draft) : List Graph.Item :=
  ((d.sketch none).run {}).2.items

end Draft

end TinyLanguage
