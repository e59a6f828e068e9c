import ShrikeDb.Dash.Split
import ShrikeDb.Dash.Growth
import ShrikeDb.Dash.Paging
import ShrikeDb.Dash.Retain
import ShrikeDb.Persistence.Metadata
import ShrikeDb.Persistence.Corruption
import ShrikeDb.Facade.Slicing
import ShrikeDb.Facade.Framing
import ShrikeDb.Server.Acknowledgement
import ShrikeDb.Server.Enumeration
import ShrikeDb.Server.SetAlgebra
import ShrikeDb.Server.Answers
import ShrikeDb.Server.Selection
import ShrikeDb.Server.Timing
import ShrikeDb.Server.Occurrences
import ShrikeDb.Server.SortedQueries
import ShrikeDb.Server.GlobIndexed
import ShrikeDb.Facade.RespIndexed
import ShrikeDb.Server.Panics
import ShrikeDb.Server.Durability
import ShrikeDb.Facade.Connection
import ShrikeDb.Server.Queues
