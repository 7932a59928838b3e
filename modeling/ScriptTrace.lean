import ScriptTrace.Native.DebugFrame
import ScriptTrace.Proofs.Pairing
import ScriptTrace.Proofs.Visible
import ScriptTrace.Proofs.Records
import ScriptTrace.Proofs.TraceText
import ScriptTrace.Proofs.RoutineNames
import ScriptTrace.Proofs.Separators
import ScriptTrace.Proofs.Unambiguous
import ScriptTrace.Proofs.HiddenFrames
import ScriptTrace.Proofs.Patterns
import ScriptTrace.Proofs.PackageShapes
import ScriptTrace.Proofs.PackageReadings
import ScriptTrace.Proofs.PackagePaths
import ScriptTrace.Proofs.RegistryHome
import ScriptTrace.Proofs.SymbolPath
import ScriptTrace.Proofs.NativeVisibility
import ScriptTrace.Proofs.CaptureLog
import ScriptTrace.Proofs.StricterFilters
import ScriptTrace.Proofs.BannerText
import ScriptTrace.Proofs.Brackets
import ScriptTrace.Proofs.SymbolPieces
import ScriptTrace.Proofs.PrintedPath
import ScriptTrace.Proofs.BacktraceWindow
import ScriptTrace.Proofs.TypeText
import ScriptTrace.Proofs.SelfType
import ScriptTrace.Proofs.MethodNames
import ScriptTrace.Proofs.NestedSelfTypes
import ScriptTrace.Proofs.ReferenceSigns
import ScriptTrace.Proofs.PairedLines
import ScriptTrace.Proofs.TextSuffix
import ScriptTrace.Proofs.VisibilityRules
import ScriptTrace.Proofs.CanonicalRecords
import ScriptTrace.Proofs.EnvironmentOptions
import ScriptTrace.Proofs.InPlacePath
import ScriptTrace.Proofs.PathNames
