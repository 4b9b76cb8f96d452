import Eventd.Core.Preceding
import Eventd.Core.QueueClose
import Eventd.Core.QueueDelivery
import Eventd.Daemon.Restart
import Eventd.Daemon.Synthetic
import Eventd.Daemon.CutCurrent
import Eventd.Daemon.ConfigChanges
import Eventd.Daemon.Indexing
import Eventd.Daemon.Ledger
import Eventd.Daemon.Replies
import Eventd.Daemon.Replacement
import Eventd.Access.DescriptorCache
import Eventd.Query.Delivery
import Eventd.Query.GroupResult
import Eventd.Query.CrossType
import Eventd.Query.Held
import Eventd.Query.Gathered
import Eventd.Query.Narrow
import Eventd.Query.Pattern
import Eventd.Query.Aggregates
import Eventd.Metric.Cache
import Eventd.Metric.Datagram
import Eventd.Metric.HistogramData
import Eventd.Metric.SeriesRuns
