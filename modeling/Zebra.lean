import Zebra.Isamb.Accounting
import Zebra.Isamb.Overlap
import Zebra.Index.Pipeline
import Zebra.Rset.MultiAndSpec
import Zebra.Rset.ProxTwo
import Zebra.Rset.MultiOr
import Zebra.Rset.Temp
import Zebra.Update.Statistics
import Zebra.Update.CustomIds
import Zebra.Update.MatchStrings
import Zebra.Isams.Runs
import Zebra.Trans.Readers
import Zebra.Bfile.ShadowMap
import Zebra.Trans.Sessions
import Zebra.Search.NumericRelation
import Zebra.Search.MaskLanguage
import Zebra.Records.RoundTrip
import Zebra.Index.Trunc
import Zebra.Isamb.Transparent
import Zebra.Index.RecKeys
import Zebra.Index.Snippets
import Zebra.Search.Structure
import Zebra.Zsets.TopRecords
import Zebra.Zsets.Positions
import Zebra.Explain.Ordinals
import Zebra.Search.ScanWindow
import Zebra.Search.OrdDict
import Zebra.Api.Access
import Zebra.Api.Traceless
import Zebra.Util.Locking
import Zebra.Util.Untrans
import Zebra.Util.ScanSafe
import Zebra.Data1.Hash
import Zebra.Data1.ReadTree
import Zebra.Index.SourceSafe
import Zebra.Xpath.RoundTrip
import Zebra.Marc.RoundTrip
import Zebra.Isamb.Guarantees
import Zebra.Util.Snippet
import Zebra.Index.Facets
import Zebra.Regx.LexNode
import Zebra.Marc.Marcomp
import Zebra.Index.Rank
import Zebra.Regx.Building
