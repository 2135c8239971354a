import FuzzyRegion.Core.Mock
import FuzzyRegion.Core.Reachable
import FuzzyRegion.Core.Rebuild
import FuzzyRegion.Core.SetLaws
import FuzzyRegion.Core.Meaning
import FuzzyRegion.Core.Representation
import FuzzyRegion.Core.Denotation
import FuzzyRegion.Core.Monotone
import FuzzyRegion.Core.Backend
import FuzzyRegion.Data.BigEndian
import FuzzyRegion.Data.Cursor
import FuzzyRegion.Data.UpToFailure
import FuzzyRegion.Data.FuzzySet
import FuzzyRegion.Pg.Storage
import FuzzyRegion.Pg.StorageCodec
import FuzzyRegion.Data.Text
import FuzzyRegion.Pg.Interop
import FuzzyRegion.Pg.SqlType
import FuzzyRegion.Pg.TextRoundTrip
import FuzzyRegion.Pg.Lossless
import FuzzyRegion.Core.Difference
import FuzzyRegion.Core.FromLevels
import FuzzyRegion.Core.Lattice
import FuzzyRegion.Core.Membership
import FuzzyRegion.Core.Powers
import FuzzyRegion.Pg.Transformed
import FuzzyRegion.Core.Normalization
import FuzzyRegion.Pg.Reader
import FuzzyRegion.Pg.Truncation
import FuzzyRegion.Pg.Srid
import FuzzyRegion.Pg.Validation
import FuzzyRegion.Pg.Projections
import FuzzyRegion.Core.Pointwise
import FuzzyRegion.Pg.Hex
import FuzzyRegion.Pg.Grammar
import FuzzyRegion.Core.TotalOrder
import FuzzyRegion.Pg.Spi
import FuzzyRegion.Pg.Functions
import FuzzyRegion.Pg.Statements
import FuzzyRegion.Pg.Sites
import FuzzyRegion.Pg.Sessions
import FuzzyRegion.Pg.Refusals
import FuzzyRegion.Pg.Constructor
import FuzzyRegion.Pg.StatementMeaning
import FuzzyRegion.Pg.Literals
import FuzzyRegion.Pg.Restore
import FuzzyRegion.Pg.Export
import FuzzyRegion.Pg.LevelCount
import FuzzyRegion.Pg.Queries
import FuzzyRegion.Pg.SessionMeaning
import FuzzyRegion.Pg.Measures
import FuzzyRegion.Pg.Wrappers
