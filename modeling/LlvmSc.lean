import LlvmSc.Query.Find
import LlvmSc.Query.Search
import LlvmSc.Query.Calls
import LlvmSc.Query.Instructions
import LlvmSc.Query.GroupBy
import LlvmSc.Query.Sort
import LlvmSc.Query.Fold
import LlvmSc.Query.Reversed
import LlvmSc.Format
import LlvmSc.Format.Fields
import LlvmSc.Format.Trim
import LlvmSc.Format.Name
import LlvmSc.Adt.Insert
import LlvmSc.Adt.Lookup
import LlvmSc.Erase
import LlvmSc.Generator
import LlvmSc.Generator.Pass
import LlvmSc.Generator.Ownership
import LlvmSc.Generator.Several
import LlvmSc.Generator.Filter
import LlvmSc.Types
import LlvmSc.Constant
import LlvmSc.Meta.Arguments
import LlvmSc.Meta.Reserved
import LlvmSc.Meta.Dispatch
import LlvmSc.Meta.Views
import LlvmSc.Annotation.Enumerate
import LlvmSc.Annotation.Offsets
import LlvmSc.Annotation.Namespace
import LlvmSc.Annotation.InNamespace
import LlvmSc.Builder.Expr
import LlvmSc.Builder.Height
import LlvmSc.Builder.KeepStack
import LlvmSc.Builder.Return
import LlvmSc.Builder.Call
import LlvmSc.Builder.Failure
import LlvmSc.Builder.Void
import LlvmSc.Builder.Blocks
import LlvmSc.Builder.Layout
import LlvmSc.Builder.Uses
import LlvmSc.Builder.Explicit
