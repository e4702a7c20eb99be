import OpenFish.Agent.Asking
import OpenFish.Agent.Branch
import OpenFish.Agent.Containment
import OpenFish.Agent.Credentials
import OpenFish.Agent.Document
import OpenFish.Agent.Keeping
import OpenFish.Agent.Laws
import OpenFish.Agent.Protocol
import OpenFish.Agent.PullRequest
import OpenFish.Agent.Run
import OpenFish.Agent.Secrecy
import OpenFish.Authz.Boots
import OpenFish.Authz.Cache
import OpenFish.Authz.Grants
import OpenFish.Authz.History
import OpenFish.Authz.Seeding
import OpenFish.Authz.Superusers
import OpenFish.Authz.Upgrades
import OpenFish.Context.Accounting
import OpenFish.Context.Keyword
import OpenFish.Context.Labels
import OpenFish.Context.Query
import OpenFish.Context.Reading
import OpenFish.Context.Render
import OpenFish.Context.Search
import OpenFish.Debian.Decoding
import OpenFish.Debian.Envelope
import OpenFish.Debian.Metadata
import OpenFish.Device.Approval
import OpenFish.Device.Delivery
import OpenFish.Device.Store
import OpenFish.Digests.Sidecar
import OpenFish.Docker.Blobs
import OpenFish.Docker.Cache
import OpenFish.Docker.Eviction
import OpenFish.Docker.Negotiation
import OpenFish.Docker.Ranges
import OpenFish.Docker.Registry
import OpenFish.Docs.Catalog
import OpenFish.Docs.Interleaving
import OpenFish.Docs.Names
import OpenFish.Docs.Numbering
import OpenFish.Docs.Retention
import OpenFish.Docs.RoundTrip
import OpenFish.Docs.Store
import OpenFish.Docs.Transfer
import OpenFish.Extensions.Sorting
import OpenFish.Findings.Activation
import OpenFish.Findings.Comeback
import OpenFish.Findings.Decisions
import OpenFish.Findings.DiffReading
import OpenFish.Findings.DiffText
import OpenFish.Findings.Drift
import OpenFish.Findings.Escalation
import OpenFish.Findings.FalsePositives
import OpenFish.Findings.History
import OpenFish.Findings.Identity
import OpenFish.Findings.Ledger
import OpenFish.Findings.Merging
import OpenFish.Findings.Model
import OpenFish.Findings.Operations
import OpenFish.Findings.Sweep
import OpenFish.Findings.Uniqueness
import OpenFish.Gates.Assurance
import OpenFish.Gates.Curation
import OpenFish.Gates.Falsifiability
import OpenFish.Gates.Fingerprint
import OpenFish.Gates.Guard
import OpenFish.Gates.Resolution
import OpenFish.GitIdentity.Recovery
import OpenFish.GitIdentity.Revocation
import OpenFish.GitIdentity.Service
import OpenFish.Hub.Lossless
import OpenFish.Hub.Packages
import OpenFish.Hub.Scan
import OpenFish.Import.Checkpoint
import OpenFish.Import.Identity
import OpenFish.Import.Jobs
import OpenFish.Import.Mirror
import OpenFish.Import.Mirroring
import OpenFish.Import.Pipeline
import OpenFish.Import.Recovery
import OpenFish.Import.Reparse
import OpenFish.Import.Resume
import OpenFish.Import.Source
import OpenFish.Import.Truncation
import OpenFish.Index.Builds
import OpenFish.Index.Incremental
import OpenFish.Index.PackageShelves
import OpenFish.Index.Packages
import OpenFish.Index.Patterns
import OpenFish.Index.Shelving
import OpenFish.Index.Watchdog
import OpenFish.Lib.Address
import OpenFish.Lib.Catalog
import OpenFish.Lib.Date
import OpenFish.Lib.Deb822
import OpenFish.Lib.Delimited
import OpenFish.Lib.Dict
import OpenFish.Lib.Effect
import OpenFish.Lib.FileTree
import OpenFish.Lib.Handling
import OpenFish.Lib.Highest
import OpenFish.Lib.Integer
import OpenFish.Lib.Interleave
import OpenFish.Lib.Json
import OpenFish.Lib.JsonRoundTrip
import OpenFish.Lib.JsonSorted
import OpenFish.Lib.JsonText
import OpenFish.Lib.JsonUnique
import OpenFish.Lib.Kahn
import OpenFish.Lib.Like
import OpenFish.Lib.Lines
import OpenFish.Lib.LinkTree
import OpenFish.Lib.Locks
import OpenFish.Lib.Machine
import OpenFish.Lib.Pages
import OpenFish.Lib.Ranges
import OpenFish.Lib.Regex
import OpenFish.Lib.Replacing
import OpenFish.Lib.Repr
import OpenFish.Lib.SemVer
import OpenFish.Lib.Sql
import OpenFish.Lib.Table
import OpenFish.Lib.Text
import OpenFish.Lib.Trail
import OpenFish.Lib.Unicode
import OpenFish.Lib.Upsert
import OpenFish.Lib.Version
import OpenFish.Lib.Words
import OpenFish.Lib.Yaml
import OpenFish.Mirrors.Exact
import OpenFish.Mirrors.Overlay
import OpenFish.Npm.Inverse
import OpenFish.Npm.Listing
import OpenFish.Npm.Lookup
import OpenFish.Npm.Publish
import OpenFish.Npm.Reading
import OpenFish.Npm.Refusal
import OpenFish.Npm.Registry
import OpenFish.Npm.Runs
import OpenFish.Objects.Agreement
import OpenFish.Objects.Refinement
import OpenFish.Objects.Stores
import OpenFish.Objects.Walk
import OpenFish.Outbound.UrlSafety
import OpenFish.Packages.Advertised
import OpenFish.Packages.DigestCache
import OpenFish.Packages.Distribution
import OpenFish.Packages.Listed
import OpenFish.Packages.Upload
import OpenFish.Packages.Validation
import OpenFish.Policies.Canonical
import OpenFish.Policies.Document
import OpenFish.Policies.RoundTrip
import OpenFish.Queue.Ceiling
import OpenFish.Queue.Dedup
import OpenFish.Queue.Delivery
import OpenFish.Queue.Fencing
import OpenFish.Queue.History
import OpenFish.Queue.Interleaving
import OpenFish.Queue.Isolation
import OpenFish.Queue.Model
import OpenFish.Queue.Stats
import OpenFish.Registry.Chosen
import OpenFish.Registry.Latest
import OpenFish.Registry.Local
import OpenFish.Registry.Manifest
import OpenFish.Registry.Paging
import OpenFish.Registry.Precedence
import OpenFish.Registry.Search
import OpenFish.Registry.WellFormed
import OpenFish.Routes.Editing
import OpenFish.Routes.Entry
import OpenFish.Routes.Migration
import OpenFish.Routes.TopUp
import OpenFish.Runner.Refusals
import OpenFish.Runner.Service
import OpenFish.Runner.Workspaces
import OpenFish.Sandbox.WorkTree
import OpenFish.Seeding.Boot
import OpenFish.Seeding.Race
import OpenFish.Tools.Catalog
import OpenFish.Tools.RoundTrip
import OpenFish.Tools.Shelf
import OpenFish.Tools.Soundness
import OpenFish.Tools.Storage
import OpenFish.Upstream.Budget
import OpenFish.Upstream.DiskCache
import OpenFish.Upstream.Expiry
import OpenFish.Webhook.Curator
import OpenFish.Webhook.Delivery
import OpenFish.Webhook.Event
import OpenFish.Webhook.Labelled
