import BlockTree.ForkChoice
import BlockTree.Tree.Entry

namespace BlockTree

variable {T : Type}

def Entry.ownWeight (rule : ForkChoice) (d : Difficulty) (e : Entry T) : Int :=
  match e.parent with
  | none => 0
  | some _ => rule.weight e.id e.block.header d

def Entry.pathWeight (rule : ForkChoice) (d : Difficulty) : List (Entry T) → Int
  | [] => 0
  | e :: es => pathWeight rule d es + e.ownWeight rule d

structure Tally where
  rule : ForkChoice
  known : Table String Int

namespace Tally

def start (rule : ForkChoice) : Tally :=
  ⟨rule, .empty⟩

def pending (known : Table String Int) : List (Entry T) → List (Entry T) × Int
  | [] => ([], 0)
  | e :: es => match known.get? e.id with
      | some sum => ([], sum)
      | none =>
          let (rest, base) := pending known es
          (e :: rest, base)

def climb (rule : ForkChoice) (d : Difficulty) (s : Table String Int × Int) (e : Entry T) :
    Table String Int × Int :=
  let sum := s.2 + e.ownWeight rule d
  (s.1.set e.id sum, sum)

def weigh (t : Tally) (d : Difficulty) (es : List (Entry T)) (id : String) : Option Int × Tally :=
  if (Entry.find? id es).isSome then
    let (todo, base) := pending t.known (Entry.path id es)
    let (known, sum) := todo.reverse.foldl (climb t.rule d) (t.known, base)
    (some sum, { t with known })
  else (none, t)

def weighAll (t : Tally) (d : Difficulty) (es : List (Entry T)) :
    List String → List (String × Option Int) × Tally
  | [] => ([], t)
  | id :: ids =>
      let (weight, t) := t.weigh d es id
      let (rest, t) := t.weighAll d es ids
      ((id, weight) :: rest, t)

end Tally

end BlockTree
