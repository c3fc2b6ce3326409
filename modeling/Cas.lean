import Cas.Append.Capacity
import Cas.Append.Commute
import Cas.Append.Cursor
import Cas.Append.Fence
import Cas.Append.Inspect
import Cas.Append.Log
import Cas.Budget.Channel
import Cas.Cache.Capacity
import Cas.Cache.Recency
import Cas.Catalog.Publish
import Cas.Census.Totals
import Cas.Daemon.Accepted
import Cas.Daemon.Fairness
import Cas.Daemon.Frontier
import Cas.Daemon.Packing
import Cas.Daemon.Segmentation
import Cas.Daemon.Slots
import Cas.Direct
import Cas.Lib.Chain
import Cas.Lib.Registry
import Cas.Manifest.Canonical
import Cas.Manifest.Hostile
import Cas.Manifest.Isolation
import Cas.Manifest.Reread
import Cas.Scheduler
import Cas.Space.Account
import Cas.Space.Staging
import Cas.Staging.Crash
import Cas.Tickets.Reuse
