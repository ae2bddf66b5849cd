import BlockTree.Genesis
import BlockTree.Tree

namespace BlockTree

inductive Chain where
  | lightSwitch (tree : Tree Bool LightSwitch.Toggle Empty)
  | twoSwitches (tree : Tree TwoSwitches.Switches TwoSwitches.Toggle Empty)
  | atm (tree : Tree Atm.State Atm.Action Empty)
  | currency (tree : Tree Currency.Balances Currency.Transaction Currency.Failure)
  | cash (tree : Tree Cash.State Cash.Transaction Cash.Failure)
  | sumProduct (tree : Tree SumProduct.State Int SumProduct.Failure)

namespace Genesis

def difficultyOr (g : Genesis) (configured : Number) : Except Fault Difficulty :=
  match g.difficulty with
  | some d => .ok d
  | none => Difficulty.ofNumber configured

def foundOn {S T E : Type} (machine : Machine S T E) (genesisState : S) (difficulty : Difficulty)
    (forkChoice : ForkChoice) : Except Fault (Tree S T E) :=
  Tree.found { machine, difficulty, genesisState, forkChoice }

def start (g : Genesis) (configured : Number)
    (choice : ForkChoice := Preference.heaviestChain.rule) : Except Fault Chain := do
  let d ← g.difficultyOr configured
  match g.founding with
  | .lightSwitch s => (foundOn LightSwitch.machine s d choice).map .lightSwitch
  | .twoSwitches s => (foundOn TwoSwitches.machine s d choice).map .twoSwitches
  | .atm s => (foundOn Atm.machine s d choice).map .atm
  | .currency s => (foundOn Currency.machine s d choice).map .currency
  | .cash s => (foundOn Cash.machine s d choice).map .cash
  | .sumProduct s => (foundOn SumProduct.machine s d choice).map .sumProduct

end Genesis

end BlockTree
