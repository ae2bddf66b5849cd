import BlockTree.Producer

namespace BlockTree

structure Session (S T E : Type) where
  tree : Tree S T E
  tallies : List Tally

inductive Asked where
  | own
  | handedIn (place : Nat)
  deriving DecidableEq, Repr

inductive Call (S T : Type) where
  | insert (b : Block T)
  | prepare (parent? : Option String) (body : List T)
  | submit (draft : Draft S T) (nonce : Int)
  | produce (parent? : Option String) (body : List T) (o : Mining.Options)
  | handIn (rule : ForkChoice)
  | weight (r : Asked) (id : String)
  | head (r : Asked)
  | chain (r : Asked)

namespace Session

variable {S T E : Type}

def start (t : Tree S T E) : Session S T E :=
  ⟨t, []⟩

def tally? (s : Session S T E) : Asked → Option Tally
  | .own => some s.tree.tally
  | .handedIn i => s.tallies[i]?

def keep (s : Session S T E) (t : Tally) : Asked → Session S T E
  | .own => { s with tree := { s.tree with tally := t } }
  | .handedIn i => { s with tallies := s.tallies.set i t }

def ask {α : Type} (s : Session S T E) (r : Asked) (question : Tally → Tree S T E → α × Tally) :
    Option α × Session S T E :=
  match s.tally? r with
  | none => (none, s)
  | some t => (some (question t s.tree).1, s.keep (question t s.tree).2 r)

-- the tree is as the work has left it, whether or not it ended in a fault
def work {α : Type} (s : Session S T E) (w : Work S T E α) : Session S T E :=
  { s with tree := w.leaves s.tree }

def step (s : Session S T E) : Call S T → Session S T E
  | .insert b => s.work (.insert b)
  | .prepare parent? body => s.work (.prepare parent? body)
  | .submit draft nonce => s.work (.submit draft nonce)
  | .produce parent? body o => s.work (.produce parent? body o)
  | .handIn rule => { s with tallies := s.tallies ++ [.start rule] }
  | .weight r id => (s.ask r fun t tree => t.weightIn tree id).2
  | .head r => (s.ask r Tally.headIn).2
  | .chain r => (s.ask r Tally.chainIn).2

def run (s : Session S T E) (calls : List (Call S T)) : Session S T E :=
  calls.foldl step s

@[simp] theorem run_nil (s : Session S T E) : s.run [] = s := rfl

@[simp] theorem run_cons (s : Session S T E) (c : Call S T) (calls : List (Call S T)) :
    s.run (c :: calls) = (s.step c).run calls := rfl

end Session

end BlockTree
