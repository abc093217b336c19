import ContentQuery.Draft.Analysis
import ContentQuery.Draft.Build
import ContentQuery.Draft.Filter
import ContentQuery.Draft.Mechanisms
import ContentQuery.Platform.Stored
import ContentQuery.Proofs.Chars.Names
import ContentQuery.Proofs.Chars.Replacing
import ContentQuery.Proofs.Chars.Templates
import ContentQuery.Proofs.OrderedMap
import ContentQuery.Proofs.Scan.Reading
import ContentQuery.Proofs.Scan.Spellings
import ContentQuery.Proofs.Scan.Keywords
import ContentQuery.Proofs.Scan.Tokens
import ContentQuery.Proofs.Scan.Occurrences
import ContentQuery.Proofs.Scan.Quiet
import ContentQuery.Proofs.Scan.Chunks
import ContentQuery.Proofs.Scan.Connectives
import ContentQuery.Proofs.Scan.Pieces
import ContentQuery.Proofs.Scan.Closed
import ContentQuery.Proofs.Scan.Cuts
import ContentQuery.Proofs.Scan.Literals
import ContentQuery.Proofs.Query.Preparation
import ContentQuery.Proofs.Query.Bookkeeping
import ContentQuery.Proofs.Query.Refusals
import ContentQuery.Proofs.Query.RowCounts
import ContentQuery.Proofs.Query.FulltextEntries
import ContentQuery.Proofs.Query.Tables
import ContentQuery.Proofs.Query.Canonical
import ContentQuery.Proofs.Query.Written
import ContentQuery.Proofs.Query.Segments
import ContentQuery.Proofs.Query.SelectList
import ContentQuery.Proofs.Query.SeparatedLists
import ContentQuery.Proofs.Query.Clauses
import ContentQuery.Proofs.Query.RowLimits
import ContentQuery.Proofs.Query.RoundTrip
import ContentQuery.Proofs.Query.Entries
import ContentQuery.Proofs.Query.Accepted
import ContentQuery.Proofs.Query.OpaqueLiterals
import ContentQuery.Proofs.Query.Selections
import ContentQuery.Proofs.Query.LimitNotations
import ContentQuery.Proofs.Query.ListBalance
import ContentQuery.Proofs.Query.Placeholders
import ContentQuery.Proofs.Query.ListLiterals
import ContentQuery.Proofs.Query.ListEntries
import ContentQuery.Proofs.Query.ListExchange
import ContentQuery.Proofs.Query.Expansion
import ContentQuery.Proofs.Condition.Rename
import ContentQuery.Proofs.Condition.Insertion
import ContentQuery.Proofs.Condition.Parts
import ContentQuery.Proofs.Condition.Closed
import ContentQuery.Proofs.Condition.Shapes
import ContentQuery.Proofs.Condition.Lexemes
import ContentQuery.Proofs.Condition.Values
import ContentQuery.Proofs.Condition.Patterns
import ContentQuery.Proofs.Condition.Quoting
import ContentQuery.Proofs.Filter.Exchange
import ContentQuery.Proofs.Fulltext.Groups
import ContentQuery.Proofs.Fulltext.Terms
import ContentQuery.Proofs.Fulltext.Searches
import ContentQuery.Proofs.Fulltext.Encodings
import ContentQuery.Proofs.Fulltext.Columns
import ContentQuery.Proofs.Condition.Expressions
import ContentQuery.Proofs.Platform.Conditions
import ContentQuery.Proofs.Platform.Closed
import ContentQuery.Proofs.Draft.Attachments
import ContentQuery.Proofs.Draft.Operations
import ContentQuery.Proofs.Draft.Reading
import ContentQuery.Proofs.Draft.OnClauses
import ContentQuery.Proofs.Draft.Workspaces
import ContentQuery.Proofs.Draft.Visibility
import ContentQuery.Proofs.Draft.Steps
import ContentQuery.Proofs.Draft.Growth
import ContentQuery.Proofs.Draft.Reachable
import ContentQuery.Proofs.Draft.Restrictions
import ContentQuery.Proofs.Draft.WhereClause
import ContentQuery.Proofs.Draft.Rebuilding
import ContentQuery.Proofs.Draft.Aliases
import ContentQuery.Proofs.Draft.History
import ContentQuery.Proofs.Draft.FilterGroups
import ContentQuery.Proofs.Draft.Filters
import ContentQuery.Proofs.Draft.FilterFields
import ContentQuery.Proofs.Draft.FulltextFilters
import ContentQuery.Proofs.Draft.Selections
import ContentQuery.Proofs.Draft.ListLiterals
import ContentQuery.Proofs.Draft.DistinctLists
import ContentQuery.Proofs.Draft.ResultColumns
import ContentQuery.Proofs.Draft.Placeholders
import ContentQuery.Proofs.Draft.SortColumns
import ContentQuery.Proofs.Draft.CallerSorting
import ContentQuery.Proofs.Draft.OverlayColumns
import ContentQuery.Proofs.Draft.BaseColumns
import ContentQuery.Proofs.Draft.Duplicates
import ContentQuery.Proofs.Draft.Origins
import ContentQuery.Proofs.Draft.Answers
import ContentQuery.Proofs.Draft.IdLists
import ContentQuery.Proofs.Draft.TableLists
