import SlotScript.Main
import SlotScript.Proofs.Acceptance
import SlotScript.Proofs.AfterFailure
import SlotScript.Proofs.Continuation
import SlotScript.Proofs.Faults
import SlotScript.Proofs.FullSink
import SlotScript.Proofs.LineNumbers
import SlotScript.Proofs.Locality
import SlotScript.Proofs.Preservation
import SlotScript.Proofs.PromptLines
import SlotScript.Proofs.Renaming
import SlotScript.Proofs.Respelling
import SlotScript.Proofs.Resumption
import SlotScript.Proofs.SlotLayout
import SlotScript.Proofs.Soundness
import SlotScript.Proofs.Typability
import SlotScript.Proofs.ScopeHistory
import SlotScript.Proofs.Effects
import SlotScript.Proofs.Powers
import SlotScript.Proofs.CompoundAssignment
import SlotScript.Proofs.Widening
import SlotScript.Proofs.StringLiterals
import SlotScript.Proofs.NumberLiterals
import SlotScript.Proofs.RegisteredNames
import SlotScript.Proofs.NodeLines
import SlotScript.Proofs.Progress
