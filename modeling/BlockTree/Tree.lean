import BlockTree.SubChain
import BlockTree.Tree.Log
import BlockTree.Tree.Tally

namespace BlockTree

structure Settings (S T E : Type) extends Validity S T E where
  genesisState : S
  forkChoice : ForkChoice := Preference.heaviestChain.rule

structure Tree (S T E : Type) where
  validity : Validity S T E
  genesisId : String
  entries : List (Entry T)
  states : Table String S
  childIndex : Table String (List String)
  tips : List String
  tally : Tally
  head : String

structure Receipt (S T E : Type) where
  tree : Tree S T E
  result : Except (Rejection E) String
  log : List (LogRecord E)

structure Desk (S T E : Type) where
  tree : Tree S T E
  log : List (LogRecord E) := []

-- what was done to the tree before a fault stays done
abbrev Work (S T E α : Type) :=
  ExceptT Fault (StateM (Desk S T E)) α

namespace Tree

variable {S T E : Type}

def found (settings : Settings S T E) : Except Fault (Tree S T E) := do
  let genesis ← settings.machine.genesisBlock settings.genesisState
  let id ← genesis.header.id
  return {
    validity := settings.toValidity
    genesisId := id
    entries := [⟨id, genesis, none, 0⟩]
    states := Table.empty.set id settings.genesisState
    childIndex := .empty
    tips := [id]
    tally := .start settings.forkChoice
    head := id }

def difficulty (t : Tree S T E) : Difficulty := t.validity.difficulty

def entry? (t : Tree S T E) (id : String) : Option (Entry T) :=
  Entry.find? id t.entries

def has (t : Tree S T E) (id : String) : Bool :=
  (t.entry? id).isSome

def size (t : Tree S T E) : Nat := t.entries.length

def header? (t : Tree S T E) (id : String) : Option Header :=
  (t.entry? id).map fun e => e.block.header

def height? (t : Tree S T E) (id : String) : Option Int :=
  (t.entry? id).map Entry.height

def state? (t : Tree S T E) (id : String) : Option S :=
  t.states.get? id

def present? (t : Tree S T E) (id : String) : Option S :=
  (t.state? id).filter t.validity.machine.isPresent

def children (t : Tree S T E) (id : String) : List String :=
  (t.childIndex.get? id).getD []

def leaves (t : Tree S T E) : List String :=
  Text.sort t.tips

def ancestors (t : Tree S T E) (id : String) : List Header :=
  (Entry.path id t.entries).map fun e => e.block.header

def weight? (t : Tree S T E) (rule : ForkChoice) (id : String) : Option Int :=
  if t.has id then some (Entry.pathWeight rule t.difficulty (Entry.path id t.entries)) else none

def bestHead (t : Tree S T E) (rule : ForkChoice) : String :=
  ForkChoice.head t.genesisId (t.leaves.map fun id => (id, t.weight? rule id))

def canonicalChain (t : Tree S T E) (rule : ForkChoice) : List Header :=
  (t.ancestors (t.bestHead rule)).reverse

end Tree

namespace Tally

variable {S T E : Type}

def weightIn (t : Tally) (tree : Tree S T E) (id : String) : Option Int × Tally :=
  t.weigh tree.difficulty tree.entries id

def weightsIn (t : Tally) (tree : Tree S T E) : List (String × Option Int) × Tally :=
  t.weighAll tree.difficulty tree.entries tree.leaves

def headIn (t : Tally) (tree : Tree S T E) : String × Tally :=
  let (weights, t) := t.weightsIn tree
  (ForkChoice.head tree.genesisId weights, t)

def chainIn (t : Tally) (tree : Tree S T E) : List Header × Tally :=
  let (head, t) := t.headIn tree
  ((tree.ancestors head).reverse, t)

end Tally

namespace Tree

variable {S T E : Type}

def parentContext? (t : Tree S T E) (id : String) : Option (ParentContext S) :=
  match t.entry? id, t.present? id with
  | some e, some s => some ⟨id, e.height, s⟩
  | _, _ => none

def graft (t : Tree S T E) (id : String) (b : Block T) (post : S) : Tree S T E :=
  let parent := b.header.parent
  { t with
    entries := ⟨id, b, some parent, b.header.height⟩ :: t.entries
    states := t.states.set id post
    childIndex := t.childIndex.set parent (t.children parent ++ [id])
    tips := t.tips.erase parent ++ [id] }

def ownHead (t : Tree S T E) : String × Tree S T E :=
  let (head, tally) := t.tally.headIn t
  (head, { t with tally })

def refreshHead (t : Tree S T E) : Tree S T E × List (LogRecord E) :=
  let (head, next) := t.ownHead
  ({ next with head }, if head = t.head then [] else [.headSwitched t.head head (t.height? head)])

def commit (t : Tree S T E) (id : String) (b : Block T) (post : S) : Receipt S T E :=
  let (tree, switched) := (t.graft id b post).refreshHead
  ⟨tree, .ok id, .admitted id b.header.parent b.header.height :: switched⟩

end Tree

namespace Work

variable {S T E α : Type}

-- the text of a record is made before anything is reported
def report (record : LogRecord E) : Work S T E Unit := do
  let desk ← get
  let _ ← record.message desk.tree.validity.machine.causeValue
  set { desk with log := desk.log ++ [record] }

def refuse (reason : Rejection E) (record : LogRecord E) :
    Work S T E (Except (Rejection E) String) := do
  report record
  return .error reason

def commit (id : String) (b : Block T) (post : S) : Work S T E Unit :=
  modify fun desk =>
    let receipt := desk.tree.commit id b post
    ⟨receipt.tree, desk.log ++ receipt.log⟩

-- a header out of shape has no identifier to be reported by
def insert (b : Block T) : Work S T E (Except (Rejection E) String) := do
  match b.header.malformedField? with
  | some field => refuse (.malformedHeader field) (.malformed field)
  | none =>
      let id ← b.header.id
      let tree := (← get).tree
      if tree.has id then return .ok id
      match ← tree.validity.check (tree.parentContext? b.header.parent) b with
      | .error reason => refuse reason (.rejected id b.header.height reason)
      | .ok post =>
          commit id b post
          return .ok id

def outcome (w : Work S T E α) (t : Tree S T E) : Except Fault (α × Desk S T E) :=
  match w.run.run ⟨t, []⟩ with
  | (.ok a, desk) => .ok (a, desk)
  | (.error fault, _) => .error fault

def leaves (w : Work S T E α) (t : Tree S T E) : Tree S T E :=
  (w.run.run ⟨t, []⟩).2.tree

def receipt (w : Work S T E (Except (Rejection E) String)) (t : Tree S T E) :
    Except Fault (Receipt S T E) :=
  (w.outcome t).map fun (result, desk) => ⟨desk.tree, result, desk.log⟩

end Work

def Tree.insert {S T E : Type} (t : Tree S T E) (b : Block T) : Except Fault (Receipt S T E) :=
  (Work.insert b).receipt t

end BlockTree
