import WebSearch.MessageConverterRoundTrip
import WebSearch.Mutex
import WebSearch.FixedSizeConQueue
import WebSearch.ThreadPool
import WebSearch.RegistryControlledDomain
import WebSearch.RegistryControlledDomainLength
import WebSearch.DependencyAnalyzer
import WebSearch.DependencyExpansion
import WebSearch.JsonValue
import WebSearch.ProtoJsonFormat
import WebSearch.ProtoJsonRoundTrip
import WebSearch.Darts
import WebSearch.DartsFetch
import WebSearch.DartsInsert
import WebSearch.DartsSearch
import WebSearch.PrefixTree
import WebSearch.PrefixTreeMatch
import WebSearch.PrefixTreeRuns
import WebSearch.ConcurrentQueue
import WebSearch.FixedSizeConQueueHistory
import WebSearch.FixedSizeConQueueCalls
import WebSearch.TopologicalSort
import WebSearch.TargetNames
import WebSearch.TestScheduler
import WebSearch.TestSchedulerProgress
import WebSearch.TestSchedulerResults
import WebSearch.Library.Dictionary
import WebSearch.Library.PosixPath
import WebSearch.Library.PythonRepr
import WebSearch.TestRunner
import WebSearch.TestRunnerHistory
import WebSearch.Library.Script
import WebSearch.SconsRules
import WebSearch.SconsRulesScope
import WebSearch.SconsRulesFits
import WebSearch.Library.Worklist
import WebSearch.LoadBuildFiles
import WebSearch.LoadBuildFilesSearch
import WebSearch.LoadBuildFilesClosure
import WebSearch.ProtoJsonFit
import WebSearch.ProtoJsonParse
import WebSearch.Library.OrderedMap
import WebSearch.Trie
import WebSearch.Library.Layout
import WebSearch.Library.LittleEndian
import WebSearch.Pickle
import WebSearch.PickleRead
import WebSearch.PickleWrite
import WebSearch.PickleRoundTrip
import WebSearch.UrlEncode
import WebSearch.DependencyErrors
import WebSearch.BlockingCounter
import WebSearch.GetDomainAndRegistry
import WebSearch.UrlParser
import WebSearch.File
import WebSearch.Library.Ascending
import WebSearch.SimpleLineReader
import WebSearch.TrieSearch
import WebSearch.UrlEncodeResults
import WebSearch.PrefixTreeSuffix
import WebSearch.Library.StringMatching
import WebSearch.Kmp
import WebSearch.Library.FileTree
import WebSearch.Directories
import WebSearch.CreateDirs
import WebSearch.CreateDirsAgree
import WebSearch.FilesInDir
import WebSearch.MatchPattern
import WebSearch.Utf
import WebSearch.UtfResults
import WebSearch.NumberStrings
import WebSearch.Library.Runs
import WebSearch.CollapseWhitespace
import WebSearch.Library.Unicode
import WebSearch.IcuUtf
import WebSearch.UtfStringConversions
import WebSearch.TruncateUtf8
import WebSearch.RelativePath
import WebSearch.BinaryRunner
import WebSearch.ScacheManager
import WebSearch.ConfigParse
import WebSearch.ConfigParseUpdate
import WebSearch.Tokenize
import WebSearch.Library.Gregorian
import WebSearch.TimePosix
import WebSearch.TldCleanup
import WebSearch.TldCleanupRules
import WebSearch.OpenedFiles
import WebSearch.OpenedFilesUnion
import WebSearch.SharedPtr
import WebSearch.SharedPtrSteps
import WebSearch.SharedPtrSafety
import WebSearch.Library.Once
import WebSearch.AtExit
import WebSearch.LazyInstance
import WebSearch.Singleton
import WebSearch.Library.BlockStream
import WebSearch.MD5
import WebSearch.FilePath
import WebSearch.FilePathComponents
import WebSearch.FilePathExtension
import WebSearch.DartsTraverse
import WebSearch.FileEnumerator
import WebSearch.Base64
import WebSearch.Base64Text
import WebSearch.Base64RoundTrip
import WebSearch.Sites
import WebSearch.DeleteTree
import WebSearch.Query
