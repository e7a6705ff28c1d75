import SegmentIndex.Geom
import SegmentIndex.Varint
import SegmentIndex.Series
import SegmentIndex.QTree.Insert
import SegmentIndex.QTree.Invariant
import SegmentIndex.QTree.Translate
import SegmentIndex.QTree.Compress
import SegmentIndex.Index
import SegmentIndex.Search
import SegmentIndex.Enumeration
import SegmentIndex.Queue
import SegmentIndex.Nearest
import SegmentIndex.Segment
import SegmentIndex.Intersection
import SegmentIndex.Sweep
import SegmentIndex.Overflow
import SegmentIndex.Uvarint
import SegmentIndex.Malformed
import SegmentIndex.Move
import SegmentIndex.Projection
