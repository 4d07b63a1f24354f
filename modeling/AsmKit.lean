import AsmKit.Assembler.Session
import AsmKit.Linker.Session
import AsmKit.Main
import AsmKit.Proofs.AddressSpace
import AsmKit.Proofs.Addresses
import AsmKit.Proofs.Assembled
import AsmKit.Proofs.BracketGrammar
import AsmKit.Proofs.ClosedForm
import AsmKit.Proofs.Codec
import AsmKit.Proofs.Collisions
import AsmKit.Proofs.Commands
import AsmKit.Proofs.Completion
import AsmKit.Proofs.ComposedObject
import AsmKit.Proofs.Composition
import AsmKit.Proofs.Construction
import AsmKit.Proofs.Declarations
import AsmKit.Proofs.DeclaredSymbols
import AsmKit.Proofs.Decoding
import AsmKit.Proofs.Disassembly
import AsmKit.Proofs.Emission
import AsmKit.Proofs.Failure
import AsmKit.Proofs.Fields
import AsmKit.Proofs.Files
import AsmKit.Proofs.FirstPass
import AsmKit.Proofs.InputOrder
import AsmKit.Proofs.InstructionWords
import AsmKit.Proofs.IntervalTree
import AsmKit.Proofs.Layout
import AsmKit.Proofs.LineBreaks
import AsmKit.Proofs.LineTexts
import AsmKit.Proofs.LinkedMemory
import AsmKit.Proofs.LinkedStatements
import AsmKit.Proofs.Linking
import AsmKit.Proofs.ListedBytes
import AsmKit.Proofs.ListedSections
import AsmKit.Proofs.ListingSyntax
import AsmKit.Proofs.Literals
import AsmKit.Proofs.Lockstep
import AsmKit.Proofs.Measure
import AsmKit.Proofs.Memory
import AsmKit.Proofs.Mentioning
import AsmKit.Proofs.Merging
import AsmKit.Proofs.Numerals
import AsmKit.Proofs.ObjectRows
import AsmKit.Proofs.OpenSections
import AsmKit.Proofs.Outputs
import AsmKit.Proofs.Overlap
import AsmKit.Proofs.Overwriting
import AsmKit.Proofs.Pieces
import AsmKit.Proofs.Placement
import AsmKit.Proofs.PlacementArguments
import AsmKit.Proofs.ReadBack
import AsmKit.Proofs.Reading
import AsmKit.Proofs.Reassembly
import AsmKit.Proofs.References
import AsmKit.Proofs.Relocating
import AsmKit.Proofs.RelocatingTwice
import AsmKit.Proofs.RelocationOrder
import AsmKit.Proofs.Rereading
import AsmKit.Proofs.Resolution
import AsmKit.Proofs.Reuse
import AsmKit.Proofs.RoundTrip
import AsmKit.Proofs.RuleOrder
import AsmKit.Proofs.Safety
import AsmKit.Proofs.SecondPass
import AsmKit.Proofs.SectionBlocks
import AsmKit.Proofs.SectionRows
import AsmKit.Proofs.Sections
import AsmKit.Proofs.Simulation
import AsmKit.Proofs.Sorting
import AsmKit.Proofs.SourceLines
import AsmKit.Proofs.Spacing
import AsmKit.Proofs.Spelling
import AsmKit.Proofs.Stage
import AsmKit.Proofs.Substitution
import AsmKit.Proofs.SymbolInvariant
import AsmKit.Proofs.Tables
import AsmKit.Proofs.Tiers
import AsmKit.Proofs.Tokens
import AsmKit.Proofs.Words
