import Rshs.Lts
import Rshs.Text
import Rshs.Utf8
import Rshs.Escapes
import Rshs.StdPath
import Rshs.FinMap
import Rshs.Memo
import Rshs.Lease
import Rshs.Webdav
import Rshs.IfHeader
import Rshs.IfSyntax
import Rshs.Ls
import Rshs.Locks
import Rshs.LockRuns
import Rshs.LockMw
import Rshs.Enforcement
import Rshs.Overlap
import Rshs.Race
import Rshs.Expiry
import Rshs.Labels
import Rshs.Tokens
import Rshs.Posix
import Rshs.Syscalls
import Rshs.Resolve
import Rshs.App
import Rshs.Http
import Rshs.CopyMove
import Rshs.Server
import Rshs.CheckedPath
import Rshs.SelfCopy
import Rshs.Growth
import Rshs.CopyRun
import Rshs.Transfer
import Rshs.Confinement
import Rshs.SourceKept
import Rshs.Str
import Rshs.Time
import Rshs.Xml
import Rshs.Named
import Rshs.Auth
import Rshs.AuthCache
import Rshs.Tailscale
import Rshs.Cli
import Rshs.ShadowFile
import Rshs.Removal
import Rshs.Migration
import Rshs.Losses
import Rshs.Lifetime
import Rshs.Href
import Rshs.Propfind
import Rshs.Discovery
import Rshs.PropBody
import Rshs.Document
import Rshs.PatchTree
import Rshs.Scope
import Rshs.CharData
import Rshs.RoundTrip
import Rshs.PropNames
import Rshs.Serial
import Rshs.Ancestors
import Rshs.LockEffects
import Rshs.PutStream
import Rshs.Subtree
import Rshs.CopyExact
import Rshs.Replace
import Rshs.Endless
import Rshs.CopyEnds
import Rshs.CopySpins
import Rshs.Answered
import Rshs.Release
import Rshs.Destination
import Rshs.Classify
import Rshs.Instructions
import Rshs.CachedParents
import Rshs.AllowList
import Rshs.IfBytes
import Rshs.Calendar
import Rshs.Dates
import Rshs.DateTexts
import Rshs.Nested
import Rshs.Writers
import Rshs.Enumerate
import Rshs.Scanners
import Rshs.ShadowLines
import Rshs.Batch
import Rshs.Listing
import Rshs.Overlay
import Rshs.WriteTarget
import Rshs.Url
import Rshs.Links
import Rshs.CharRefs
import Rshs.Html
import Rshs.Injection
import Rshs.Answers
import Rshs.Responses
import Rshs.Logins
import Rshs.Origins
import Rshs.PropHistory
import Rshs.ServerLocks
import Rshs.Protected
import Rshs.LockOrigins
