import Errifier.Machine.Run
import Errifier.Machine.EraseLoop
import Errifier.Text.QString
import Errifier.Text.ServerEntry
import Errifier.Client.Table
import Errifier.Client.Watch
import Errifier.Client.WorkerThread
import Errifier.Client.Ui
import Errifier.Client.Moves
import Errifier.Client.Rows
import Errifier.Client.Entries
import Errifier.Client.Alignment
import Errifier.Client.Address
import Errifier.Client.Duplicates
import Errifier.Client.Removal
import Errifier.Client.Notify
import Errifier.Client.Silence
import Errifier.Client.Search
import Errifier.Client.DeadWatch
import Errifier.Client.OwnRow
import Errifier.Server.Inotify
import Errifier.Server.StartNotifier
import Errifier.Server.Descriptors
import Errifier.System.Alarm
import Errifier.Server.EventScan
import Errifier.Server.Hopeless
import Errifier.Text.Fgets
import Errifier.Server.GetLog
import Errifier.Server.LogDecoder
import Errifier.Text.Shell
import Errifier.Server.Command
import Errifier.Client.Status
import Errifier.Client.Failures
import Errifier.Client.Orphans
import Errifier.Client.Cells
import Errifier.System.Genuine
import Errifier.Text.EntryCodec
import Errifier.Machine.Reader
import Errifier.Rpc.Protocol
import Errifier.Rpc.WorkerHandler
import Errifier.Client.Answers
import Errifier.Client.Atomic
import Errifier.Client.Endings
import Errifier.Client.Invocations
import Errifier.System.Network
import Errifier.System.Remote
