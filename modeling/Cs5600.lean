import Cs5600.Lib.Basic
import Cs5600.Lib.Fields
import Cs5600.Lib.Bytes
import Cs5600.Lib.Walk
import Cs5600.Lib.Heap
import Cs5600.Lib.Run
import Cs5600.Lib.Trace
import Cs5600.Lib.CondVar
import Cs5600.Lib.Decimal
import Cs5600.Lib.Process
import Cs5600.Lib.Sections
import Cs5600.Lib.Carried
import Cs5600.Lab1.Caesar
import Cs5600.Lab1.Queue
import Cs5600.Lab1.Invert
import Cs5600.Lab1.CipheredQueue
import Cs5600.Lab1.Undo
import Cs5600.Lab1.RoundTrip
import Cs5600.Lab1.Bounds
import Cs5600.Lab1.Allocated
import Cs5600.Lab1.QueueMain
import Cs5600.Lab1.Replay
import Cs5600.Lab2.Token
import Cs5600.Lab2.Parse
import Cs5600.Lab2.Grammar
import Cs5600.Lab2.Accept
import Cs5600.Lab2.Reference
import Cs5600.Lab2.TokenCalls
import Cs5600.Lab2.PushBack
import Cs5600.Lab2.Malformed
import Cs5600.Lab2.Exec
import Cs5600.Lab2.Fork
import Cs5600.Lab2.Control
import Cs5600.Lab2.Pipes
import Cs5600.Lab2.Redirect
import Cs5600.Lab2.Subshell
import Cs5600.Lab2.Builtins
import Cs5600.Lab2.Free
import Cs5600.Lab3.KvStore
import Cs5600.Lab3.Chains
import Cs5600.Lab3.KvMap
import Cs5600.Lab3.Placement
import Cs5600.Lab3.Dump
import Cs5600.Lab3.Server
import Cs5600.Lab3.Monitor
import Cs5600.Lab3.Accesses
import Cs5600.Lab3.Interleaved
import Cs5600.Lab3.Snapshot
import Cs5600.Lab3.WorkQueue
import Cs5600.Lab3.Connections
import Cs5600.Lab3.Drain
import Cs5600.Lab3.Wire
import Cs5600.Lab3.Session
import Cs5600.Lab3.Frame
import Cs5600.Lab3.Reply
import Cs5600.Lab4.Disk
import Cs5600.Lab4.Bitmap
import Cs5600.Lab4.Diskfmt
import Cs5600.Lab4.Layout
import Cs5600.Lab4.Dirent
import Cs5600.Lab4.Path
import Cs5600.Lab4.Lookup
import Cs5600.Lab4.Update
import Cs5600.Lab4.Calls
import Cs5600.Lab4.Tree
import Cs5600.Lab4.Resolve
import Cs5600.Lab4.Spec
import Cs5600.Lab4.Edit
import Cs5600.Lab4.Header
import Cs5600.Lab4.Remove
import Cs5600.Lab4.Make
import Cs5600.Lab4.Rename
import Cs5600.Lab4.Write
import Cs5600.Lab4.Read
import Cs5600.Lab4.Request
import Cs5600.Lab4.Image
import Cs5600.Lab4.GenDisk
import Cs5600.Lab4.Namespace
import Cs5600.Lab4.InBounds
import Cs5600.Lab4.Contents
import Cs5600.Lab4.Consistency
import Cs5600.Lab4.Device
import Cs5600.Lab4.ReadImg
import Cs5600.Lab4.Usage
import Cs5600.Lab4.Hidden
import Cs5600.Lab4.PathError
import Cs5600.Lab4.Full
import Cs5600.Lab4.OneName
import Cs5600.Lab4.Components
import Cs5600.Lab4.ParentPath
import Cs5600.Lab4.AnyString
import Cs5600.Lab4.Listing
import Cs5600.Lab4.WideDir
import Cs5600.Lab4.FileSystem
import Cs5600.Lab4.Refinement
import Cs5600.Lab4.Laws
