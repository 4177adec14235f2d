import VitaCheat.Lib.BitSet
import VitaCheat.Lib.Trace
import VitaCheat.Lib.BoundedArray
import VitaCheat.Lib.Buffer
import VitaCheat.Lib.Cursor
import VitaCheat.Lib.TextLines
import VitaCheat.Lib.Tiling
import VitaCheat.Lib.Prefixes
import VitaCheat.Lib.Placement
import VitaCheat.Lib.Digits
import VitaCheat.Lib.Region
import VitaCheat.Lib.Polling
import VitaCheat.Lib.Segments
import VitaCheat.Pause
import VitaCheat.PauseLoops
import VitaCheat.PauseSteps
import VitaCheat.PauseInvariant
import VitaCheat.PauseRepresentation
import VitaCheat.PauseLedger
import VitaCheat.PauseOrigin
import VitaCheat.PauseRejections
import VitaCheat.PauseTraces
import VitaCheat.PauseWatchdog
import VitaCheat.PauseClock
import VitaCheat.PauseAccount
import VitaCheat.PauseRefinement
import VitaCheat.PauseRelease
import VitaCheat.PauseKernel
import VitaCheat.MenuActivation
import VitaCheat.MenuTrace
import VitaCheat.MenuPolling
import VitaCheat.SelfTest
import VitaCheat.SelfTestGate
import VitaCheat.SelfTestNavigation
import VitaCheat.Platform
import VitaCheat.Search
import VitaCheat.SearchValues
import VitaCheat.SearchLoops
import VitaCheat.SearchGuards
import VitaCheat.SearchInitial
import VitaCheat.SearchRefine
import VitaCheat.SearchRelations
import VitaCheat.SearchSession
import VitaCheat.SearchIndependence
import VitaCheat.SearchStores
import VitaCheat.SearchWindows
import VitaCheat.SearchCoverage
import VitaCheat.SearchResume
import VitaCheat.SearchCallers
import VitaCheat.FuzzSearch
import VitaCheat.FuzzChecks
import VitaCheat.SelfTestScanner
import VitaCheat.SelfTestMain
import VitaCheat.SelfTestDisplay
import VitaCheat.OverlapGuards
import VitaCheat.Psv
import VitaCheat.PsvText
import VitaCheat.PsvGrammar
import VitaCheat.PsvCode
import VitaCheat.PsvLines
import VitaCheat.PsvDocument
import VitaCheat.PsvSteps
import VitaCheat.PsvRefinement
import VitaCheat.PsvImport
import VitaCheat.PsvLossless
import VitaCheat.PsvGraph
import VitaCheat.PsvReference
import VitaCheat.PsvScopes
import VitaCheat.PsvSelectors
import VitaCheat.PsvHistory
import VitaCheat.PsvAttempts
import VitaCheat.PsvBounds
import VitaCheat.PsvShift
import VitaCheat.PsvConcat
import VitaCheat.PsvInert
import VitaCheat.PsvEntries
import VitaCheat.PsvExport
import VitaCheat.PsvIsolation
import VitaCheat.PsvDiagnostics
import VitaCheat.PsvGrowth
