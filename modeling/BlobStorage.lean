import BlobStorage.Types
import BlobStorage.Error
import BlobStorage.Validate
import BlobStorage.ListFilter
import BlobStorage.Store
import BlobStorage.Prefix
import BlobStorage.Encrypt.Provider
import BlobStorage.Encrypt.Store
import BlobStorage.KeyGrammar
import BlobStorage.Cleanup
import BlobStorage.Calls
import BlobStorage.Backend.Map
import BlobStorage.Stack
import BlobStorage.Refinement.Contract
import BlobStorage.Refinement.Prefix
import BlobStorage.Encrypt.Shift
import BlobStorage.Refinement.Encrypt
import BlobStorage.Refinement.Backend
import BlobStorage.Refinement.Stack
import BlobStorage.Concurrency.Requests
import BlobStorage.Concurrency.Calls
import BlobStorage.Concurrency.SingleKey
import BlobStorage.Failure.Crash
import BlobStorage.Concurrency.Batches
import BlobStorage.Concurrency.RekeyCalls
import BlobStorage.Concurrency.SizeHints
import BlobStorage.Concurrency.Rekey
import BlobStorage.Failure.ReadFaults
import BlobStorage.Cleanup.Deletions
import BlobStorage.Browsing.Shown
import BlobStorage.Browsing.Encrypted
import BlobStorage.Browsing.Visibility
import BlobStorage.Browsing.Agreement
import BlobStorage.Browsing.Loop
import BlobStorage.Library.Path
import BlobStorage.Library.FileTree
import BlobStorage.Backend.Fs
import BlobStorage.Backend.Fs.Paths
import BlobStorage.Backend.Fs.Walk
import BlobStorage.Backend.Fs.Files
import BlobStorage.Backend.Fs.Presence
import BlobStorage.Backend.Fs.Hints
import BlobStorage.Backend.S3
import BlobStorage.Backend.S3.Deletions
import BlobStorage.Backend.S3.Pages
import BlobStorage.Browsing.Backends
import BlobStorage.Failure.BatchReports
import BlobStorage.Failure.FailedBatch
import BlobStorage.Library.Transition
import BlobStorage.Library.Ownership
import BlobStorage.Maintenance.Builder
import BlobStorage.Maintenance.Shutdown
import BlobStorage.Maintenance.Manual
import BlobStorage.Library.Confinement
import BlobStorage.Isolation.MapLike
import BlobStorage.Isolation.Tenants
import BlobStorage.Encrypt.Pipe
import BlobStorage.Commuting.Backend
import BlobStorage.Commuting.Layers
import BlobStorage.Commuting.Listings
import BlobStorage.Backend.S3.Uploads
import BlobStorage.Library.Walk
import BlobStorage.Walks
import BlobStorage.Cleanup.Sweep
import BlobStorage.Encrypt.Rewrap
import BlobStorage.Browsing.Pullback
import BlobStorage.Browsing.Usable
import BlobStorage.Backend.Fs.Writes
import BlobStorage.Library.TreeCalls
import BlobStorage.Backend.Fs.Collisions
import BlobStorage.Backend.Fs.Headers
import BlobStorage.Failure.Rejections
import BlobStorage.Failure.PartialRejections
import BlobStorage.Browsing.Selection
import BlobStorage.Browsing.SelectionLayers
import BlobStorage.Backend.Fs.Enumeration
import BlobStorage.Backend.S3.Enumeration
import BlobStorage.Browsing.Metadata
import BlobStorage.Commuting.Prefixes
import BlobStorage.Backend.Fs.Cuts
import BlobStorage.Backend.Fs.KeyPaths
import BlobStorage.Backend.Fs.Calls
import BlobStorage.Library.Footprint
import BlobStorage.Backend.Fs.Confined
import BlobStorage.Maintenance.Queue
import BlobStorage.Maintenance.Strategies
import BlobStorage.Maintenance.Convergence
import BlobStorage.Maintenance.Occasions
import BlobStorage.Maintenance.Serving
import BlobStorage.Maintenance.Progress
import BlobStorage.Maintenance.Triggers
import BlobStorage.Library.Interference
import BlobStorage.Backend.S3.Service
import BlobStorage.Backend.S3.Atomicity
import BlobStorage.Backend.S3.Reliable
import BlobStorage.Backend.S3.Storing
import BlobStorage.Refinement.Derived
import BlobStorage.Backend.S3.Refinement
