import ScriptMemory.Interchange
import ScriptMemory.Listing.Rule
import ScriptMemory.Main
import ScriptMemory.Proofs.Analysis.CallTree
import ScriptMemory.Proofs.Analysis.Contract
import ScriptMemory.Proofs.Analysis.Findings
import ScriptMemory.Proofs.Analysis.Interpretation
import ScriptMemory.Proofs.Analysis.Soundness
import ScriptMemory.Proofs.Atomicity
import ScriptMemory.Proofs.Consistency
import ScriptMemory.Proofs.Merging
import ScriptMemory.Proofs.Sharing
import ScriptMemory.Proofs.Memory.Confinement
import ScriptMemory.Proofs.Analysis.FrameDiscipline
import ScriptMemory.Proofs.Memory.Nesting
import ScriptMemory.Proofs.ArrayTrees
import ScriptMemory.Proofs.Memory.Sweep
import ScriptMemory.Proofs.Analysis.Completeness
import ScriptMemory.Proofs.Analysis.Loosening
import ScriptMemory.Proofs.Anonymity
import ScriptMemory.Proofs.Memory.Agreement
import ScriptMemory.Proofs.Analysis.Agreement
import ScriptMemory.Proofs.Analysis.Precision
import ScriptMemory.Proofs.Lattice
import ScriptMemory.Proofs.Objects
import ScriptMemory.Proofs.Listing.Roundtrip
import ScriptMemory.Proofs.Analysis.Guarding
import ScriptMemory.Proofs.WeakWrites
import ScriptMemory.Proofs.Assignment
import ScriptMemory.Proofs.ConservativeWidening
import ScriptMemory.Proofs.Unsetting
import ScriptMemory.Proofs.Observation
import ScriptMemory.Proofs.Analysis.Approximation
import ScriptMemory.Proofs.Stabilization
import ScriptMemory.Proofs.Committing
import ScriptMemory.Proofs.ByReference
import ScriptMemory.Proofs.LocalMerging
import ScriptMemory.Proofs.Overlapping
import ScriptMemory.Proofs.SelfAssignment
import ScriptMemory.Proofs.UnknownReads
import ScriptMemory.Proofs.Siblings
import ScriptMemory.Proofs.MemberReads
import ScriptMemory.Proofs.AliasClosure
import ScriptMemory.Proofs.Listing.Literals
import ScriptMemory.Proofs.Ancestry
import ScriptMemory.Proofs.Identities
