import BlockTree.Mining
import BlockTree.Tree

namespace BlockTree

variable {S T E : Type}

namespace Work

def bestHead : Work S T E String := do
  let (head, tree) := (← get).tree.ownHead
  modify fun desk => { desk with tree }
  return head

def prepare (parent? : Option String) (body : List T) :
    Work S T E (Except (Rejection E) (Draft S T)) := do
  let parent ← match parent? with
    | some id => pure id
    | none => bestHead
  let tree := (← get).tree
  match tree.header? parent, tree.present? parent with
  | some header, some state => do
      let drafted ← tree.validity.machine.draftOn header state body
      return drafted.mapError .invalidTransition
  | _, _ => return .error (.unknownParent parent)

def submit (draft : Draft S T) (nonce : Int) : Work S T E (Except (Rejection E) String) := do
  let result ← insert (draft.sealWith nonce)
  if let .ok id := result then report (.mined id draft.header.height nonce)
  return result

-- nothing if the search runs out of patience
def produce (parent? : Option String) (body : List T) (o : Mining.Options) :
    Work S T E (Option (Except (Rejection E) String)) := do
  match ← prepare parent? body with
  | .error reason => return some (.error reason)
  | .ok draft =>
      match ← Mining.mine draft.header (← get).tree.difficulty o with
      | none => return none
      | some nonce => do
          let result ← submit draft nonce
          return some result

end Work

namespace Tree

def prepare (t : Tree S T E) (parent? : Option String) (body : List T) :
    Except Fault (Tree S T E × Except (Rejection E) (Draft S T)) :=
  ((Work.prepare parent? body).outcome t).map fun (drafted, desk) => (desk.tree, drafted)

def submit (t : Tree S T E) (draft : Draft S T) (nonce : Int) : Except Fault (Receipt S T E) :=
  (Work.submit draft nonce).receipt t

def produce (t : Tree S T E) (parent? : Option String) (body : List T) (o : Mining.Options) :
    Except Fault (Option (Receipt S T E)) :=
  ((Work.produce parent? body o).outcome t).map fun (result?, desk) =>
    result?.map fun result => ⟨desk.tree, result, desk.log⟩

end Tree

end BlockTree
