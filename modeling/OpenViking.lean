import OpenViking.Context.Budget
import OpenViking.Git.Log
import OpenViking.Git.Resolve
import OpenViking.Index.Counting
import OpenViking.Index.FlatRuns
import OpenViking.Index.Contents
import OpenViking.Index.PathRuns
import OpenViking.Index.RangedRuns
import OpenViking.Index.Routing
import OpenViking.Index.SetSemantics
import OpenViking.Links.Merge
import OpenViking.Lock.IsLocked
import OpenViking.Lock.Requests
import OpenViking.Query.Compensation
import OpenViking.Queue.Status
import OpenViking.Queuefs.Subtrees
import OpenViking.Ragfs.Mounts
import OpenViking.Session.Retention
import OpenViking.Session.PendingTokens
import OpenViking.Store.Agreement
import OpenViking.Store.Expiry
import OpenViking.Store.Scan
import OpenViking.Memory.PortableUri
import OpenViking.Memory.Replacements
import OpenViking.S3fs.Keys
import OpenViking.S3fs.GrepStream
import OpenViking.Context.Gather
import OpenViking.Lib.EditDistance
import OpenViking.Memory.Levenshtein
import OpenViking.Queue.CircuitBreaker
import OpenViking.Watch.Task
import OpenViking.Watch.Scheduler
import OpenViking.Watch.Storage
import OpenViking.Memory.UpdateSplit
import OpenViking.Retrieve.RecursiveSearch
import OpenViking.Tracker.Dispatch
import OpenViking.Sidecar.Document
import OpenViking.VikingFs.Paths
