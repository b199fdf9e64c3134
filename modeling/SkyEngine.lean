import SkyEngine.Basic
import SkyEngine.Lib.Forest
import SkyEngine.Lib.Position
import SkyEngine.Lib.Chain
import SkyEngine.Lib.Rounding
import SkyEngine.Lib.Binary64
import SkyEngine.Lib.CString
import SkyEngine.Lib.Numeral
import SkyEngine.Lib.IntegerText
import SkyEngine.Lib.Lua
import SkyEngine.Lib.LuaTable
import SkyEngine.Lib.Blocks
import SkyEngine.Lib.Word64
import SkyEngine.Lib.BitMap
import SkyEngine.Lib.BitTrie
import SkyEngine.Lib.BestFit
import SkyEngine.Lib.ByteMemory
import SkyEngine.Lib.ByteInt
import SkyEngine.Lib.Lifetimes
import SkyEngine.Lib.Query
import SkyEngine.Meta.Types
import SkyEngine.Meta.System
import SkyEngine.Meta.Numbering
import SkyEngine.Meta.Registry
import SkyEngine.Meta.Termination
import SkyEngine.Meta.Lookup
import SkyEngine.Meta.Functions
import SkyEngine.Meta.Cast
import SkyEngine.Meta.ReadWrite
import SkyEngine.Meta.TypeCheck
import SkyEngine.Meta.Scalar
import SkyEngine.Meta.Apply
import SkyEngine.Meta.Interference
import SkyEngine.Meta.Lossless
import SkyEngine.Meta.TextRoundTrip
import SkyEngine.Meta.Variables
import SkyEngine.Meta.MemberStore
import SkyEngine.Meta.Objects
import SkyEngine.Meta.Descriptors
import SkyEngine.Meta.DescriptorRuns
import SkyEngine.Memory.Heap
import SkyEngine.Memory.Accounting
import SkyEngine.Memory.Routing
import SkyEngine.Memory.UsedBytes
import SkyEngine.Memory.Tags
import SkyEngine.Mspace.Chunks
import SkyEngine.Mspace.Arena
import SkyEngine.Mspace.TreeIndex
import SkyEngine.Mspace.Bins
import SkyEngine.Mspace.Search
import SkyEngine.Mspace.State
import SkyEngine.Mspace.Invariant
import SkyEngine.Mspace.Info
import SkyEngine.Mspace.Malloc
import SkyEngine.Mspace.Free
import SkyEngine.Mspace.Memalign
import SkyEngine.Mspace.Runs
import SkyEngine.Mspace.Reuse
import SkyEngine.Memory.HeapMspace
import SkyEngine.Memory.HostedRuns
import SkyEngine.LuaInterface.Bind
import SkyEngine.LuaInterface.RoundTrip
import SkyEngine.LuaInterface.NewDelete
import SkyEngine.LuaInterface.Ownership
import SkyEngine.LuaInterface.Lifecycle
import SkyEngine.LuaInterface.ScalarRoundTrip
import SkyEngine.LuaInterface.Cast
import SkyEngine.LuaInterface.Lookups
import SkyEngine.LuaInterface.ClassIds
import SkyEngine.LuaInterface.Equality
import SkyEngine.LuaInterface.CastAgreement
import SkyEngine.LuaInterface.Index
