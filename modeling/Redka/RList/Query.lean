import Redka.Sqlx.Adapt

/-! # The list queries as PostgreSQL receives them

`PostgresTx` adapts every query with `AdaptPostgresQuery`, and `Len`, `Set` and `push`
number and adapt theirs before it does.  The adapter is neither indifferent to numbering
nor idempotent (`adapt_not_stable`): unnumbered, `limit ?, ?` becomes `LIMIT $1 OFFSET $2`,
which binds the first argument, the offset of `limit x, y`, as the limit, where the numbered
query gives `LIMIT $2 OFFSET $1`; and a second pass qualifies a `JOIN` query's `type = n`
again.

`Trim`'s PostgreSQL text (`trimPostgres`) does not survive the adapter: its alias `rowid`
is rewritten with the column, which gives `select ctid::text as ctid::text`, a cast where
the grammar wants a name (`trimPostgres_castAlias`).
-/

namespace Redka
namespace RList
namespace Query
open Strings Sqlx

/-- The adapter in general: numbering before it swaps the arguments of `limit ?, ?`, and
a second pass qualifies `type = 1` in a `JOIN` query twice. -/
theorem adapt_not_stable :
    adaptPostgresQuery (convertPlaceholders "limit ?, ?") = "LIMIT $2 OFFSET $1" ∧
      adaptPostgresQuery "limit ?, ?" = "LIMIT $1 OFFSET $2" ∧
      adaptPostgresQuery "join type = 1" = "JOIN rkey.type = 1" ∧
      adaptPostgresQuery (adaptPostgresQuery "join type = 1") = "JOIN rkey.rkey.type = 1" := by
  decide

/-- The PostgreSQL branch of `Tx.Trim`. -/
def trimPostgres : String :=
  "\n\t\twith curkey as (\n\t\t\tselect id from rkey\n" ++
    "\t\t\twhere key = $1 and type = 2 and (etime is null or etime > $2)\n\t\t),\n" ++
    "\t\tcounts as (\n\t\t\tselect len from rkey\n\t\t\twhere id = (select id from curkey)\n\t\t),\n" ++
    "\t\tbounds as (\n\t\t\tselect\n\t\t\t\tcase when $3 < 0\n" ++
    "\t\t\t\t\tthen (select len from counts) + $4\n\t\t\t\t\telse $5\n\t\t\t\tend as start,\n" ++
    "\t\t\t\tcase when $6 < 0\n\t\t\t\t\tthen (select len from counts) + $7\n" ++
    "\t\t\t\t\telse $8\n\t\t\t\tend as stop\n\t\t),\n" ++
    "\t\tremain as (\n\t\t\tselect ctid::text as rowid from rlist\n" ++
    "\t\t\twhere kid = (select id from curkey)\n\t\t\torder by pos\n" ++
    "\t\t\tlimit ((select stop from bounds) - (select start from bounds) + 1)\n" ++
    "\t\t\toffset (select start from bounds)\n\t\t)\n\t\tdelete from rlist\n\t\twhere\n" ++
    "\t\t\tkid = (select id from curkey)\n\t\t\tand ctid::text not in (select rowid from remain)"

/-- The word a text starts with: its characters up to the first blank. -/
def firstWord (cs : List Char) : List Char := cs.takeWhile fun c => !isSpace c

/-- Whether a query names a column by a cast: PostgreSQL's grammar wants a name after
`as`, and `select x as ctid::text` is a syntax error. -/
def castAlias : List Char → Bool
  | [] => false
  | ' ' :: 'a' :: 's' :: ' ' :: rest => (firstWord rest).contains ':' || castAlias rest
  | _ :: rest => castAlias rest

/-- Adapted, `Trim`'s PostgreSQL text names `remain`'s column by a cast. -/
theorem trimPostgres_castAlias : castAlias (adaptPostgresQuery trimPostgres).data = true := by
  decide!

end Query
end RList
end Redka
