import ScriptTrace.Text.Utf8
import ScriptTrace.Visibility

namespace ScriptTrace.Native

def defaultFrameCount : UInt64 := 128

def unlimitedFrameCount : UInt64 := 0xFFFFFFFFFFFFFFFF

structure Settings where
  filter : FrameFilter := {}
  maxFrameCount : UInt64 := defaultFrameCount
  showFullPath : Bool := false

namespace Settings

def lowered (text : List Char) : List Char := text.map Char.toLower

def listsOption (options name : String) : Bool :=
  (options.toList.splitOn ',').any (lowered · = name.toList)

/-- The settings that the bytes of two environment variables ask for: `backtrace`, which counts only
if it is `full` to the letter, and `options`, a list in which what cannot be decoded names
nothing. -/
def ofBytes (backtrace options : Option (List UInt8)) : Settings :=
  let list := options.map Text.Utf8.decode
  let full := backtrace = some (Text.Utf8.encode "full") || list.any (listsOption · "full")
  { filter := { showHidden := full }
    maxFrameCount := if full then unlimitedFrameCount else defaultFrameCount
    showFullPath := list.any (listsOption · "full_paths") }

def ofEnvironment (backtrace options : Option String) : Settings :=
  ofBytes (backtrace.map Text.Utf8.encode) (options.map Text.Utf8.encode)

end Settings

end ScriptTrace.Native
