import Nkvdb.AsyncWorker.WakeUp
import Nkvdb.BTree.Repeats
import Nkvdb.BTree.Touched
import Nkvdb.Cache.PastTime
import Nkvdb.Index.Mapped
import Nkvdb.Index.Routed
import Nkvdb.Index.Search
import Nkvdb.Page.Agrees
import Nkvdb.Page.Backward
import Nkvdb.Page.Capacity
import Nkvdb.Page.Filters
import Nkvdb.Page.HandleWindow
import Nkvdb.Page.Honest
import Nkvdb.Page.IndexRoom
import Nkvdb.Page.Newest
import Nkvdb.Page.Singles
import Nkvdb.Page.Sizes
import Nkvdb.Page.Survive
import Nkvdb.Page.WindowRead
import Nkvdb.PageManager
import Nkvdb.Pipeline.Guarantees
import Nkvdb.Pipeline.Resized
import Nkvdb.Search
import Nkvdb.Storage.LoadCurValues
import Nkvdb.Storage.Located
import Nkvdb.Storage.Midway
import Nkvdb.Storage.Once
import Nkvdb.Storage.Pages
import Nkvdb.Storage.Progress
import Nkvdb.Storage.Schedule
import Nkvdb.Storage.StatePart
import Nkvdb.Storage.Written
