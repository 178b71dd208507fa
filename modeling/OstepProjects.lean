import OstepProjects.Lib.RunLength
import OstepProjects.Lib.Transition
import OstepProjects.Lib.CircularQueue
import OstepProjects.Zip.Wzip
import OstepProjects.Zip.Chunks
import OstepProjects.Zip.Pzip3
import OstepProjects.Zip.Pzip3Progress
import OstepProjects.Zip.Pzip3Pages
import OstepProjects.Zip.Pzip3Refinement
import OstepProjects.Lib.CString
import OstepProjects.Lib.InsertionSort
import OstepProjects.Lib.Grouping
import OstepProjects.MapReduce.Mapreduce
import OstepProjects.MapReduce.MapPhase
import OstepProjects.MapReduce.ReducePhase
import OstepProjects.WebServer.Wserver
import OstepProjects.WebServer.Fifo
import OstepProjects.FileSystemChecker.Image
import OstepProjects.FileSystemChecker.Bitmap
import OstepProjects.Lib.Bytes
import OstepProjects.WebServer.Request
import OstepProjects.WebServer.CompleteRequest
import OstepProjects.WebServer.Sff
import OstepProjects.WebServer.SffResponses
import OstepProjects.Lib.StableQueue
import OstepProjects.Lib.Cursor
import OstepProjects.Lib.Words
import OstepProjects.Lib.Descriptors
import OstepProjects.Shell.Wish
import OstepProjects.Shell.Segments
import OstepProjects.Shell.Arguments
import OstepProjects.Shell.Slots
import OstepProjects.Shell.Redirection
import OstepProjects.WebServer.SffOrder
import OstepProjects.WebServer.SffBlocking
import OstepProjects.MapReduce.Wordcount
import OstepProjects.MapReduce.KeyGroups
import OstepProjects.MapReduce.ReduceCalls
import OstepProjects.MapReduce.RepeatedRuns
import OstepProjects.Lib.Walk
import OstepProjects.FileSystemChecker.DirectoryWalk
import OstepProjects.Lib.Paths
import OstepProjects.WebServer.Confinement
import OstepProjects.Shell.SearchPath
import OstepProjects.Shell.OpenDescriptors
import OstepProjects.Shell.Acceptance
import OstepProjects.Lib.Lines
import OstepProjects.Reverse.Reverse
import OstepProjects.Reverse.Main
import OstepProjects.WebServer.Readline
import OstepProjects.WebServer.Buffers
import OstepProjects.WebServer.StaticFiles
import OstepProjects.Lib.Loops
import OstepProjects.FileSystemChecker.Checked
import OstepProjects.FileSystemChecker.Duplicates
import OstepProjects.FileSystemChecker.Addresses
import OstepProjects.FileSystemChecker.DuplicateKind
import OstepProjects.FileSystemChecker.Verdicts
import OstepProjects.FileSystemChecker.Clashes
import OstepProjects.FileSystemChecker.SlotArea
import OstepProjects.FileSystemChecker.LastSlot
import OstepProjects.Zip.Records
import OstepProjects.Zip.Pzip
import OstepProjects.Zip.Buffers
import OstepProjects.Zip.Pzip3Positions
import OstepProjects.Zip.Pzip3Queue
import OstepProjects.MapReduce.Tables
import OstepProjects.Shell.InputFix
import OstepProjects.FileSystemChecker.Orphans
import OstepProjects.FileSystemChecker.BitmapSet
import OstepProjects.Shell.TableBounds
import OstepProjects.Lib.Fairness
import OstepProjects.Lib.Tickets
import OstepProjects.Zip.Pzip2
import OstepProjects.Zip.Pzip2Runs
import OstepProjects.Zip.Pzip2Progress
import OstepProjects.WebServer.Liveness
import OstepProjects.WebServer.SffWaiting
import OstepProjects.WebServer.Wclient
import OstepProjects.Lib.Ledger
import OstepProjects.WebServer.Sequential
import OstepProjects.Shell.Processes
import OstepProjects.Shell.Together
import OstepProjects.Shell.SessionEnds
import OstepProjects.Lib.Allocation
import OstepProjects.FileSystemChecker.Consistency
import OstepProjects.FileSystemChecker.BlockWrites
import OstepProjects.Utilities.Wgrep
import OstepProjects.Utilities.Wcat
import OstepProjects.Zip.Archives
