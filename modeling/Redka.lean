import Redka.Store
import Redka.Sqlx
import Redka.RList.Sql
import Redka.RList.Tx
import Redka.RList.Seq
import Redka.RList.Spec
import Redka.RHash.Sql
import Redka.RHash.Tx
import Redka.Calls
import Redka.RList.Refine
import Redka.RList.Reads
import Redka.RList.Range
import Redka.Sqlx.Adapt
import Redka.Sqlx.Expand
import Redka.Sqlx.Glob
import Redka.RList.Query
import Redka.Effects
import Redka.RList.Effects
import Redka.RHash.Effects
import Redka.Runs
import Redka.RHash.Refine
import Redka.Frame
import Redka.Expired
import Redka.RSet.Scanner
import Redka.RHash.Scan
import Redka.Url
import Redka.Sqlx.DataSource
import Redka.Db
import Redka.RList.Len
import Redka.RHash.ScanAmid
