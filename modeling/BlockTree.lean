import BlockTree.Admission
import BlockTree.Block
import BlockTree.Bytes
import BlockTree.Chain
import BlockTree.ChainRule
import BlockTree.Commitment
import BlockTree.Config
import BlockTree.Difficulty
import BlockTree.Fault
import BlockTree.ForkChoice
import BlockTree.Genesis
import BlockTree.Header
import BlockTree.Hex
import BlockTree.Json
import BlockTree.Json.Reader
import BlockTree.Keccak
import BlockTree.Lex
import BlockTree.Machine
import BlockTree.Machines.Atm
import BlockTree.Machines.Cash
import BlockTree.Machines.Counter
import BlockTree.Machines.Currency
import BlockTree.Machines.LightSwitch
import BlockTree.Machines.SumProduct
import BlockTree.Machines.TwoSwitches
import BlockTree.Mining
import BlockTree.Number
import BlockTree.Number.Decimal
import BlockTree.Producer
import BlockTree.Proofs.Admission
import BlockTree.Proofs.Amounts
import BlockTree.Proofs.Ancestry
import BlockTree.Proofs.ArrivalOrder
import BlockTree.Proofs.Atomicity
import BlockTree.Proofs.BatchSize
import BlockTree.Proofs.Batches
import BlockTree.Proofs.BestLeaf
import BlockTree.Proofs.Bills
import BlockTree.Proofs.BodyCommitment
import BlockTree.Proofs.Configuration
import BlockTree.Proofs.Descent
import BlockTree.Proofs.Documents
import BlockTree.Proofs.Encodability
import BlockTree.Proofs.EncodingPrefixes
import BlockTree.Proofs.FaithfulEncoding
import BlockTree.Proofs.Faults
import BlockTree.Proofs.Forest
import BlockTree.Proofs.Funds
import BlockTree.Proofs.GenesisState
import BlockTree.Proofs.Growth
import BlockTree.Proofs.HeadChoice
import BlockTree.Proofs.HeadSwitches
import BlockTree.Proofs.HeaderEncoding
import BlockTree.Proofs.History
import BlockTree.Proofs.Indexes
import BlockTree.Proofs.LeadingZeros
import BlockTree.Proofs.LeastNonce
import BlockTree.Proofs.MachineEncoding
import BlockTree.Proofs.Mining
import BlockTree.Proofs.Numerals
import BlockTree.Proofs.OneLineTexts
import BlockTree.Proofs.Production
import BlockTree.Proofs.Reading
import BlockTree.Proofs.Reanchoring
import BlockTree.Proofs.Rearrangement
import BlockTree.Proofs.Refusals
import BlockTree.Proofs.Replay
import BlockTree.Proofs.Rounding
import BlockTree.Proofs.RuleSets
import BlockTree.Proofs.Runs
import BlockTree.Proofs.SafeChains
import BlockTree.Proofs.SelfDelimiting
import BlockTree.Proofs.Session
import BlockTree.Proofs.SharedContainers
import BlockTree.Proofs.Spending
import BlockTree.Proofs.StricterRules
import BlockTree.Proofs.SubChain
import BlockTree.Proofs.SumsAndProducts
import BlockTree.Proofs.Tallest
import BlockTree.Proofs.Transfers
import BlockTree.Proofs.ValueEncoding
import BlockTree.Proofs.Verdicts
import BlockTree.Proofs.Weights
import BlockTree.Proofs.Withdrawals
import BlockTree.Proofs.Wording
import BlockTree.Proofs.WrittenIntegers
import BlockTree.Reading
import BlockTree.Rlp
import BlockTree.Sorting
import BlockTree.SubChain
import BlockTree.Table
import BlockTree.Text
import BlockTree.Tree
import BlockTree.Tree.Entry
import BlockTree.Tree.Log
import BlockTree.Tree.Tally
import BlockTree.Value
import BlockTree.Value.Canonical
import BlockTree.Value.Display
