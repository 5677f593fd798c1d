import Neosurf.Proof.Urldb.ReturnCookie
import Neosurf.Proof.Urldb.AuthDetails
import Neosurf.Proof.Urldb.SoundRuns
import Neosurf.Proof.Urldb.DeleteCookie
import Neosurf.Proof.Urldb.CookieLists
import Neosurf.Proof.Urldb.HstsPolicy
import Neosurf.Proof.Urldb.SearchTrees
import Neosurf.Proof.Urldb.IteratePartial
import Neosurf.Proof.Urldb.UrlFile
import Neosurf.Proof.Urldb.OwnUrls
import Neosurf.Proof.Llcache.Redirect
import Neosurf.Proof.Llcache.Replays
import Neosurf.Proof.Llcache.Metadata
import Neosurf.Construction.Llcache.Metadata
import Neosurf.Construction.Base64
import Neosurf.Construction.Http
import Neosurf.Proof.Mimesniff
import Neosurf.Proof.Nsurl.Consistent
import Neosurf.Proof.Nsurl.WellFormed
import Neosurf.Proof.LinkedHashmap
import Neosurf.Proof.FsBackingStore.FetchLatest
import Neosurf.Proof.FsBackingStore.WellPlaced
import Neosurf.Proof.FsBackingStore.References
import Neosurf.Proof.FsBackingStore.FailedStore
import Neosurf.Proof.FsBackingStore.TotalAlloc
import Neosurf.Proof.FsBackingStore.Standing
import Neosurf.Proof.Llcache.CandidateCounts
import Neosurf.Proof.Llcache.Candidates
import Neosurf.Proof.Fetch
import Neosurf.Proof.Textarea.EditHistory
import Neosurf.Proof.Textarea.Reflow
import Neosurf.Proof.BrowserHistory.Runs
import Neosurf.Proof.Content
import Neosurf.Proof.Hlcache.Runs
import Neosurf.Proof.CssImports.Runs
import Neosurf.Proof.Idna
import Neosurf.Proof.Nsurl.DotEscapes
import Neosurf.Proof.Nsurl.Extents
import Neosurf.Proof.Nsurl.Whitespace
import Neosurf.Proof.Nsurl.Utf8
import Neosurf.Proof.Nsurl.Userinfo
import Neosurf.Proof.Nsurl.HostPort
import Neosurf.Proof.Scrollbar
import Neosurf.Proof.Urldb.CookieLoop
import Neosurf.Proof.Urldb.CookieRules
import Neosurf.Proof.Llcache.SplitHeader
import Neosurf.Proof.Llcache.Lifetime
import Neosurf.Proof.Urldb.CookieBuffer
import Neosurf.Proof.Url
import Neosurf.Proof.FetchData
import Neosurf.Proof.Hashtable
import Neosurf.Proof.TableBorder
import Neosurf.Proof.LayoutFlex.Collect
import Neosurf.Proof.LayoutFlex.Sizes
import Neosurf.Proof.Textsearch.FindPattern
import Neosurf.Proof.Textsearch.Contexts
import Neosurf.Proof.SaveText
import Neosurf.Proof.Textselection
import Neosurf.Proof.Textplain
import Neosurf.Proof.Nsoption
import Neosurf.Proof.LayoutFloats
import Neosurf.Proof.ContentUsers
import Neosurf.Proof.ImageCache
import Neosurf.Proof.Form
import Neosurf.Proof.LayoutTable
import Neosurf.Construction.LayoutTable
import Neosurf.Proof.Base64
import Neosurf.Proof.SslCerts
import Neosurf.Construction.Libcss.Select
import Neosurf.ToMathlib.Comparing
import Neosurf.Proof.Libcss.Order
import Neosurf.Proof.Libcss.Match
import Neosurf.Proof.Libcss.Style
