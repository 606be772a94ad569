import Mojo.CBindings.Allocate
import Mojo.CBindings.CopyValidates
import Mojo.CBindings.UnionPointer
import Mojo.CppBindings.UnionSafety
import Mojo.CppBindings.RouterResponses
import Mojo.CppBindings.RouterSend
import Mojo.RustBindings.UnionCursor
import Mojo.RustBindings.NestedUnions
import Mojo.RustBindings.FromJava
import Mojo.GoBindings.RouterAnswers
import Mojo.JavaBindings.RoundTrip
import Mojo.Message.StructHeader
import Mojo.PythonBindings.PromiseRuns
import Mojo.CppUtility.RunLoopWaitSet
import Mojo.CppUtility.RunLoopTasks
import Mojo.CppBindings.Bounds
import Mojo.CppBindings.HandleTransfer
import Mojo.RustBindings.DecoderClaims
import Mojo.Message.Readings
import Mojo.RustBindings.RunLoopDeadlines
import Mojo.RustBindings.RunLoopTimeouts
import Mojo.JavaBindings.EncoderGrowth
import Mojo.JavaBindings.Pointers
import Mojo.JavaBindings.Executor
import Mojo.GoBindings.Capacity
import Mojo.CppUtility.RunLoopExpired
import Mojo.DartWatcher.Timers
import Mojo.Composition.FrameTracker
import Mojo.PythonBindings.ArrayLengths
import Mojo.PythonBindings.DeserializeSafety
import Mojo.JsBindings.Handles
import Mojo.JsBindings.Unions
