import Warrant.Config.Settings
import Warrant.Proofs.RootSession
import Warrant.Proofs.Substitution
import Warrant.Session.Calls
import Warrant.Proofs.Overlap
import Warrant.Proofs.NameSupplies
import Warrant.Proofs.ConditionNames
import Warrant.Proofs.TypeRecovery
import Warrant.Proofs.Counterparts
import Warrant.Proofs.Discharges
import Warrant.Proofs.Origins
import Warrant.Proofs.FilingSteps
import Warrant.Proofs.LemmaNames
import Warrant.Proofs.Citations
import Warrant.Proofs.BlockOrder
import Warrant.Proofs.DocumentNames
import Warrant.Proofs.Delegation
import Warrant.Proofs.LiveNames
import Warrant.Proofs.Tokens
import Warrant.Proofs.TypeReader
import Warrant.Proofs.TermReader
import Warrant.Proofs.Readings
import Warrant.Proofs.FinishingOrder
import Warrant.Proofs.Dominators
import Warrant.Proofs.BackEdges
import Warrant.Proofs.ForwardOrder
import Warrant.Proofs.ConditionScope
import Warrant.Proofs.LoopReports
import Warrant.Proofs.FirstOccurrence
import Warrant.Proofs.HintDefinitions
import Warrant.Proofs.EquationNames
import Warrant.Proofs.FreePlaces
import Warrant.Proofs.HandedOutNames
import Warrant.Proofs.WellFormedness
import Warrant.Proofs.BinderTypes
