import FastWasm.Validate
import FastWasm.Grammar
import FastWasm.EndMatch
import FastWasm.Blocks
import FastWasm.StackBounds
import FastWasm.Calls
import FastWasm.Simulate
import FastWasm.Align
import FastWasm.Returns
import FastWasm.StackEffect
import FastWasm.Terminate
import FastWasm.Locals
import FastWasm.Framing
import FastWasm.Functions
import FastWasm.Imports
import FastWasm.Payloads
import FastWasm.ParseStatus
import FastWasm.ParseIndices
import FastWasm.Registry
import FastWasm.IndexSpace
import FastWasm.Exports
import FastWasm.FreeMatch
import FastWasm.Indices
import FastWasm.Consts
import FastWasm.Entry
import FastWasm.Canonical
import FastWasm.Compare
import FastWasm.LebTrace
import FastWasm.LebBounds
import FastWasm.ConstExprs
import FastWasm.Limits
import FastWasm.Elements
import FastWasm.Types
import FastWasm.LocalDecls
import FastWasm.Names
import FastWasm.CallGraph
import FastWasm.BlockFree
import FastWasm.Lifecycle
import FastWasm.TagSound
import FastWasm.FileRuns
import FastWasm.Files
