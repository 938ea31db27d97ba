import ShellAlias.Table.Basic

namespace ShellAlias

structure KeyCache where
  keys : List Text := []
  refreshes : Nat := 0
  deriving DecidableEq, Repr

namespace KeyCache

structure Refresh where
  refreshed : Bool
  cache : KeyCache
  table : Table
  log : List Event

/-- Copies the keys if the table has changed since its last snapshot. -/
def refresh (cache : KeyCache) (table : Table) : Refresh :=
  match table.snapshot true with
  | (some keys, table) => ⟨true,⟨keys,cache.refreshes + 1⟩,table,[.cacheRefreshed keys.length]⟩
  | (none, table) => ⟨false,cache,table,[]⟩

def complete (cache : KeyCache) (start : Text) : List Text :=
  cache.keys.filter fun key => start.isPrefixOf key

end KeyCache
end ShellAlias
