import LogicRegression.Construction.ClassifyOutput
import LogicRegression.Construction.CreatePattern
import LogicRegression.Construction.FixNetwork
import LogicRegression.Construction.Iogen
import LogicRegression.Construction.Main
import LogicRegression.Construction.MixVerilog
import LogicRegression.Construction.Pattern
import LogicRegression.Construction.SatOpt
import LogicRegression.Construction.TimingFunc
import LogicRegression.Construction.Verilog
import LogicRegression.Construction.WriteBlif
import LogicRegression.Library.Binary
import LogicRegression.Library.Blif
import LogicRegression.Library.Cube
import LogicRegression.Library.Files
import LogicRegression.Library.FixedWeight
import LogicRegression.Library.Fold
import LogicRegression.Library.Greedy
import LogicRegression.Library.Netlist
import LogicRegression.Library.Program
import LogicRegression.Library.SortedSet
import LogicRegression.Library.Text
import LogicRegression.Library.Token
import LogicRegression.Proof.ClassifyOutput.Constant
import LogicRegression.Proof.ClassifyOutput.Sampling
import LogicRegression.Proof.CreatePattern.Budget
import LogicRegression.Proof.CreatePattern.Candidates
import LogicRegression.Proof.CreatePattern.Closure
import LogicRegression.Proof.CreatePattern.Completeness
import LogicRegression.Proof.CreatePattern.Enumeration
import LogicRegression.Proof.CreatePattern.Keys
import LogicRegression.Proof.CreatePattern.Levels
import LogicRegression.Proof.CreatePattern.Order
import LogicRegression.Proof.CreatePattern.Progress
import LogicRegression.Proof.FixNetwork.Comparison
import LogicRegression.Proof.FixNetwork.Repair
import LogicRegression.Proof.Iogen.Reference
import LogicRegression.Proof.Main.Agreement
import LogicRegression.Proof.Main.Circuit
import LogicRegression.Proof.Main.Flags
import LogicRegression.Proof.Main.Independence
import LogicRegression.Proof.Main.Leftover
import LogicRegression.Proof.Main.Shares
import LogicRegression.Proof.Main.Stages
import LogicRegression.Proof.MixVerilog.Blocks
import LogicRegression.Proof.MixVerilog.Instances
import LogicRegression.Proof.MixVerilog.Suffix
import LogicRegression.Proof.MixVerilog.WellFormed
import LogicRegression.Proof.Pattern.Generation
import LogicRegression.Proof.Pattern.Occurrences
import LogicRegression.Proof.Pattern.ReadInfo
import LogicRegression.Proof.Pattern.Selection
import LogicRegression.Proof.SatOpt.Expansion
import LogicRegression.Proof.SatOpt.LiteralOrder
import LogicRegression.Proof.SatOpt.Minimize
import LogicRegression.Proof.SatOpt.PrimeCover
import LogicRegression.Proof.SatOpt.Reading
import LogicRegression.Proof.SatOpt.Reorder
import LogicRegression.Proof.SatOpt.Sequence
import LogicRegression.Proof.SatOpt.Shape
import LogicRegression.Proof.Synthesis.Exact
import LogicRegression.Proof.Synthesis.TruthTable
import LogicRegression.Proof.WriteBlif.Copy
import LogicRegression.Proof.WriteBlif.Drivers
import LogicRegression.Proof.TimingFunc.Safety
import LogicRegression.Construction.Testbench
import LogicRegression.Construction.Verify
import LogicRegression.Proof.ClassifyOutput.Progress
import LogicRegression.Proof.Testbench.Header
import LogicRegression.Proof.SatOpt.Accesses
import LogicRegression.Proof.Verify.Phases
import LogicRegression.Construction.Minimize
import LogicRegression.Library.Core
import LogicRegression.Proof.Minimize.Divide
import LogicRegression.Proof.Minimize.Termination
import LogicRegression.Proof.Minimize.Exhaustive
import LogicRegression.Library.Structural
import LogicRegression.Construction.WriteVerilog
import LogicRegression.Proof.WriteVerilog.Layout
import LogicRegression.Proof.WriteVerilog.RoundTrip
import LogicRegression.Proof.WriteVerilog.Meaning
import LogicRegression.Proof.WriteVerilog.Lines
import LogicRegression.Proof.Verilog.Format
import LogicRegression.Proof.MixVerilog.Reading
import LogicRegression.Proof.MixVerilog.Meaning
import LogicRegression.Proof.MixVerilog.Renaming
import LogicRegression.Proof.Main.Frame
import LogicRegression.Proof.FixNetwork.Model
import LogicRegression.Proof.Main.Values
import LogicRegression.Proof.Testbench.Rows
import LogicRegression.Library.Hierarchy
import LogicRegression.Proof.Verilog.Hierarchy
import LogicRegression.Proof.WriteVerilog.Completeness
import LogicRegression.Proof.MixVerilog.Hierarchy
import LogicRegression.Proof.Main.Mixed
import LogicRegression.Proof.Main.Correct
import LogicRegression.Proof.SatOpt.Reference
